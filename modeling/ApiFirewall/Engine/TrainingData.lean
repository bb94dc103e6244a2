import ApiFirewall.Engine.Features
import Mathlib.Data.List.Forall2
import Mathlib.Data.List.FinRange

/-!
# The data on which the models are trained

The trainer draws three classes of traffic column by column. The classes differ in the laws of the
columns and in what is added to some of them. The entropy of the payload and the rate of error
responses are clipped to an interval in every class. The rows, shuffled and cut to the features in
vector order, are what the models are fitted to.
-/

namespace ApiFirewall.Engine

open ApiFirewall.Wire

/-- A random generator: every method draws a sample of a given size and moves the state on. -/
structure Generator (K σ : Type) where
  gamma : K → K → (n : ℕ) → StateM σ (Fin n → K)
  poisson : K → (n : ℕ) → StateM σ (Fin n → ℕ)
  normal : K → K → (n : ℕ) → StateM σ (Fin n → K)
  exponential : K → (n : ℕ) → StateM σ (Fin n → K)
  binomial : ℕ → K → (n : ℕ) → StateM σ (Fin n → ℕ)

/-- The rows of a data frame; a row has a value for the names of its columns. -/
abbrev DataFrame (K : Type) := List (String → Option K)

/-- The rows of named columns of one length. -/
def DataFrame.ofColumns {K : Type} {n : ℕ} (columns : List (String × (Fin n → K))) : DataFrame K :=
  (List.finRange n).map fun i name => (columns.lookup name).map fun column => column i

/-- The values of the rows in the given columns, in that order; a missing column is an error. -/
def DataFrame.values {K : Type} (columns : List String) (frame : DataFrame K) :
    Option (List (List (Double K))) :=
  frame.mapM fun row => (columns.mapM row).map fun xs => xs.map .finite

section Rows

/-- A computation over a list that succeeds does so element by element. -/
theorem mapM_eq_some_iff {α β : Type} {f : α → Option β} {xs : List α} {ys : List β} :
    xs.mapM f = some ys ↔ List.Forall₂ (fun x y => f x = some y) xs ys := by
  induction xs generalizing ys with
  | nil => simp [eq_comm]
  | cons x rest ih =>
    rw [List.mapM_cons, List.forall₂_cons_left_iff]
    simp only [← ih, Option.bind_eq_bind, Option.bind_eq_some_iff, Option.pure_def,
      Option.some.injEq]
    constructor
    · rintro ⟨y, hy, ys', hys, rfl⟩
      exact ⟨y, ys', hy, hys, rfl⟩
    · rintro ⟨y, ys', hy, hys, rfl⟩
      exact ⟨y, hy, ys', hys, rfl⟩

/-- The elements of the result are those of the list under the computation. -/
theorem getElem?_of_mapM {α β : Type} {f : α → Option β} {xs : List α} {ys : List β}
    (h : xs.mapM f = some ys) (i : ℕ) : ys[i]? = xs[i]?.bind f := by
  have hforall := mapM_eq_some_iff.mp h
  clear h
  induction hforall generalizing i with
  | nil => rfl
  | cons hhead _ ih =>
    cases i with
    | zero => exact hhead.symm
    | succ i => exact ih i

/-- Each element of the result comes from one of the list. -/
theorem exists_of_mem_mapM {α β : Type} {f : α → Option β} {xs : List α} {ys : List β}
    (h : xs.mapM f = some ys) {y : β} (hy : y ∈ ys) : ∃ x ∈ xs, f x = some y := by
  obtain ⟨i, hi⟩ := List.mem_iff_getElem?.mp hy
  rw [getElem?_of_mapM h] at hi
  obtain ⟨x, hx, hfx⟩ := Option.bind_eq_some_iff.mp hi
  exact ⟨x, List.mem_of_getElem? hx, hfx⟩

/-- A computation over a list succeeds exactly if it does on every element. -/
theorem exists_mapM_iff {α β : Type} {f : α → Option β} {xs : List α} :
    (∃ ys, xs.mapM f = some ys) ↔ ∀ x ∈ xs, ∃ y, f x = some y := by
  simp only [mapM_eq_some_iff]
  induction xs with
  | nil => simp
  | cons x rest ih =>
    rw [List.forall_mem_cons, ← ih]
    constructor
    · rintro ⟨_, hys⟩
      obtain ⟨y, ys, hy, hrest, -⟩ := List.forall₂_cons_left_iff.mp hys
      exact ⟨⟨y, hy⟩, ys, hrest⟩
    · rintro ⟨⟨y, hy⟩, ys, hrest⟩
      exact ⟨_, .cons hy hrest⟩

variable {K : Type} {columns : List String} {frame : DataFrame K}

/-- The values are defined exactly if every row has all the columns. -/
theorem DataFrame.exists_values_iff :
    (∃ vectors, frame.values columns = some vectors) ↔
      ∀ row ∈ frame, ∀ column ∈ columns, ∃ x, row column = some x := by
  simp only [values, exists_mapM_iff, Option.map_eq_some_iff]
  apply forall₂_congr
  intro row _
  rw [← exists_mapM_iff]
  constructor
  · rintro ⟨_, xs, hxs, -⟩
    exact ⟨xs, hxs⟩
  · rintro ⟨xs, hxs⟩
    exact ⟨_, xs, hxs, rfl⟩

/-- Each of the values belongs to a row, and has the row's value in each column. -/
theorem DataFrame.exists_row_of_mem_values {vectors : List (List (Double K))}
    (h : frame.values columns = some vectors) {vector : List (Double K)}
    (hvector : vector ∈ vectors) :
    ∃ row ∈ frame, ∀ i : ℕ, vector[i]? = (columns[i]?.bind row).map .finite := by
  obtain ⟨row, hrow, hvalues⟩ := exists_of_mem_mapM h hvector
  obtain ⟨xs, hxs, rfl⟩ := Option.map_eq_some_iff.mp hvalues
  refine ⟨row, hrow, fun i => ?_⟩
  rw [List.getElem?_map, getElem?_of_mapM hxs]

end Rows

/-- The laws of the columns of one class, and what is added to the draws of some of them. -/
structure TrafficClass (K : Type) [Field K] where
  /-- Shape and scale. -/
  reqRate10s : K × K
  reqRate10sOffset : K := 0
  /-- Shape and scale. -/
  reqRate60s : K × K
  reqRate60sOffset : K := 0
  distinctEndpoints60s : K
  failedAuthStreak : K
  failedAuthStreakOffset : K := 0
  /-- Mean and standard deviation. -/
  payloadEntropy : K × K
  paramCountDeviation : K
  paramCountDeviationOffset : K := 0
  /-- Mean and standard deviation. -/
  priceOrQtyAnomaly : K × K
  priceOrQtyAnomalyOffset : K := 0
  sessionAgeSeconds : K
  /-- Mean and standard deviation. -/
  geoVelocityKmph : K × K
  knownBadUaFlag : K
  /-- Mean and standard deviation. -/
  responseErrorRate5m : K × K
  offHoursFlag : K
  label : ℕ

section Classes

variable {K σ : Type} [Field K]

/-- A number with some decimal places. -/
def decimal (digits places : ℕ) : K := digits / powerOfTen places

/-- Traffic of legitimate users. -/
def benign : TrafficClass K where
  reqRate10s := (decimal 12 1, decimal 4 1)
  reqRate60s := (decimal 20 1, decimal 15 1)
  distinctEndpoints60s := decimal 3 0
  failedAuthStreak := decimal 5 2
  payloadEntropy := (decimal 34 1, decimal 4 1)
  paramCountDeviation := decimal 3 1
  priceOrQtyAnomaly := (0, decimal 15 2)
  sessionAgeSeconds := decimal 1800 0
  geoVelocityKmph := (decimal 5 0, decimal 15 0)
  knownBadUaFlag := decimal 1 2
  responseErrorRate5m := (decimal 2 2, decimal 3 2)
  offHoursFlag := decimal 12 2
  label := 0

/-- Traffic that tries stolen credentials. -/
def credentialStuffing : TrafficClass K where
  reqRate10s := (decimal 60 1, decimal 12 1)
  reqRate10sOffset := decimal 3 0
  reqRate60s := (decimal 80 1, decimal 30 1)
  reqRate60sOffset := decimal 10 0
  distinctEndpoints60s := decimal 11 1
  failedAuthStreak := decimal 9 0
  failedAuthStreakOffset := decimal 2 0
  payloadEntropy := (decimal 42 1, decimal 6 1)
  paramCountDeviation := decimal 4 1
  priceOrQtyAnomaly := (0, decimal 2 1)
  sessionAgeSeconds := decimal 15 0
  geoVelocityKmph := (decimal 650 0, decimal 500 0)
  knownBadUaFlag := decimal 55 2
  responseErrorRate5m := (decimal 6 1, decimal 2 1)
  offHoursFlag := decimal 4 1
  label := 1

/-- Traffic that tampers with prices, quantities and hidden fields. -/
def businessLogicAbuse : TrafficClass K where
  reqRate10s := (decimal 13 1, decimal 5 1)
  reqRate60s := (decimal 22 1, decimal 16 1)
  distinctEndpoints60s := decimal 25 1
  failedAuthStreak := decimal 5 2
  payloadEntropy := (decimal 36 1, decimal 5 1)
  paramCountDeviation := decimal 45 1
  paramCountDeviationOffset := decimal 1 0
  priceOrQtyAnomaly := (decimal 45 1, decimal 20 1)
  priceOrQtyAnomalyOffset := decimal 15 1
  sessionAgeSeconds := decimal 2200 0
  geoVelocityKmph := (decimal 6 0, decimal 12 0)
  knownBadUaFlag := decimal 3 2
  responseErrorRate5m := (decimal 5 2, decimal 5 2)
  offHoursFlag := decimal 2 1
  label := 1

variable [LinearOrder K]

/-- Move a number into an interval. -/
def clip (lo hi x : K) : K := min (max x lo) hi

/-- Draw rows of a class. -/
def TrafficClass.frame (traffic : TrafficClass K) (rng : Generator K σ) (n : ℕ) :
    StateM σ (DataFrame K) := do
  let reqRate10s ← rng.gamma traffic.reqRate10s.1 traffic.reqRate10s.2 n
  let reqRate60s ← rng.gamma traffic.reqRate60s.1 traffic.reqRate60s.2 n
  let distinctEndpoints60s ← rng.poisson traffic.distinctEndpoints60s n
  let failedAuthStreak ← rng.poisson traffic.failedAuthStreak n
  let payloadEntropy ← rng.normal traffic.payloadEntropy.1 traffic.payloadEntropy.2 n
  let paramCountDeviation ← rng.poisson traffic.paramCountDeviation n
  let priceOrQtyAnomaly ← rng.normal traffic.priceOrQtyAnomaly.1 traffic.priceOrQtyAnomaly.2 n
  let sessionAgeSeconds ← rng.exponential traffic.sessionAgeSeconds n
  let geoVelocityKmph ← rng.normal traffic.geoVelocityKmph.1 traffic.geoVelocityKmph.2 n
  let knownBadUaFlag ← rng.binomial 1 traffic.knownBadUaFlag n
  let responseErrorRate5m ← rng.normal traffic.responseErrorRate5m.1 traffic.responseErrorRate5m.2 n
  let offHoursFlag ← rng.binomial 1 traffic.offHoursFlag n
  return DataFrame.ofColumns
    [("req_rate_10s", fun i => reqRate10s i + traffic.reqRate10sOffset),
     ("req_rate_60s", fun i => reqRate60s i + traffic.reqRate60sOffset),
     ("distinct_endpoints_60s", fun i => distinctEndpoints60s i),
     ("failed_auth_streak", fun i => failedAuthStreak i + traffic.failedAuthStreakOffset),
     ("payload_entropy", fun i => clip 0 (decimal 8 0) (payloadEntropy i)),
     ("param_count_deviation", fun i => paramCountDeviation i + traffic.paramCountDeviationOffset),
     ("price_or_qty_anomaly", fun i => |priceOrQtyAnomaly i| + traffic.priceOrQtyAnomalyOffset),
     ("session_age_seconds", sessionAgeSeconds),
     ("geo_velocity_kmph", fun i => |geoVelocityKmph i|),
     ("known_bad_ua_flag", fun i => knownBadUaFlag i),
     ("response_error_rate_5m", fun i => clip 0 1 |responseErrorRate5m i|),
     ("off_hours_flag", fun i => offHoursFlag i),
     ("label", fun _ => traffic.label)]

/-- Rows of the three classes, shuffled. -/
def generateDataset (rng : Generator K σ) (shuffle : DataFrame K → DataFrame K)
    (nBenign nStuffing nAbuse : ℕ) : StateM σ (DataFrame K) := do
  let benignRows ← benign.frame rng nBenign
  let stuffingRows ← credentialStuffing.frame rng nStuffing
  let abuseRows ← businessLogicAbuse.frame rng nAbuse
  return shuffle (benignRows ++ stuffingRows ++ abuseRows)

/-- The feature vectors of a dataset of the default size. -/
def trainingVectors (rng : Generator K σ) (shuffle : DataFrame K → DataFrame K) (state : σ) :
    Option (List (List (Double K))) :=
  (generateDataset rng shuffle 6000 900 600 state).1.values featureOrder

end Classes

section Support

variable {K σ : Type} [Field K] [LinearOrder K]

/-- The features that the trainer clips, with their intervals. -/
def clippedFeatures : List (String × K × K) :=
  [("payload_entropy", 0, decimal 8 0), ("response_error_rate_5m", 0, 1)]

/-- Each clipped component of a vector lies in its interval. -/
def InSupport (vector : List (Double K)) : Prop :=
  ∀ entry ∈ clippedFeatures, ∃ x, featureOf vector entry.1 = some x ∧
    Double.le (.finite entry.2.1) x = true ∧ Double.le x (.finite entry.2.2) = true

/-- A row has all the features, and each clipped one lies in its interval. -/
structure RowInSupport (row : String → Option K) : Prop where
  complete : ∀ feature ∈ featureOrder, ∃ x, row feature = some x
  clipped : ∀ entry ∈ clippedFeatures, ∃ x, row entry.1 = some x ∧ entry.2.1 ≤ x ∧ x ≤ entry.2.2

omit [Field K] in
/-- A clipped number lies in the interval. -/
theorem clip_mem {lo hi : K} (h : lo ≤ hi) (x : K) : lo ≤ clip lo hi x ∧ clip lo hi x ≤ hi :=
  ⟨le_min (le_max_right _ _) h, min_le_right _ _⟩

variable [IsStrictOrderedRing K]

/-- The interval of the entropy is not empty. -/
theorem decimal_nonneg (digits places : ℕ) : (0 : K) ≤ decimal digits places :=
  div_nonneg (Nat.cast_nonneg _) (Nat.cast_nonneg _)

/-- Every row of a class lies in the support, whatever is drawn. -/
theorem TrafficClass.rowInSupport (traffic : TrafficClass K) (rng : Generator K σ) (n : ℕ)
    (state : σ) : ∀ row ∈ (traffic.frame rng n state).1, RowInSupport row := by
  intro row hrow
  obtain ⟨i, -, rfl⟩ := List.mem_map.mp hrow
  constructor
  · intro feature hfeature
    simp only [featureOrder, List.mem_cons, List.not_mem_nil, or_false] at hfeature
    rcases hfeature with rfl | rfl | rfl | rfl | rfl | rfl | rfl | rfl | rfl | rfl | rfl | rfl <;>
      exact ⟨_, rfl⟩
  · intro entry hentry
    simp only [clippedFeatures, List.mem_cons, List.not_mem_nil, or_false] at hentry
    rcases hentry with rfl | rfl
    · exact ⟨_, rfl, clip_mem (decimal_nonneg _ _) _⟩
    · exact ⟨_, rfl, clip_mem zero_le_one _⟩

/-- Every row of a dataset lies in the support. -/
theorem generateDataset_rowInSupport (rng : Generator K σ) {shuffle : DataFrame K → DataFrame K}
    (hshuffle : ∀ frame, (shuffle frame).Perm frame) (nBenign nStuffing nAbuse : ℕ) (state : σ) :
    ∀ row ∈ (generateDataset rng shuffle nBenign nStuffing nAbuse state).1, RowInSupport row := by
  intro row hrow
  have hrow : row ∈ _ ++ _ ++ _ := (hshuffle _).mem_iff.mp hrow
  rcases List.mem_append.mp hrow with hrow | habuse
  · rcases List.mem_append.mp hrow with hbenign | hstuffing
    · exact benign.rowInSupport rng nBenign state row hbenign
    · exact credentialStuffing.rowInSupport rng nStuffing _ row hstuffing
  · exact businessLogicAbuse.rowInSupport rng nAbuse _ row habuse

/-- The trainer gets the vectors of a dataset. -/
theorem exists_trainingVectors (rng : Generator K σ) {shuffle : DataFrame K → DataFrame K}
    (hshuffle : ∀ frame, (shuffle frame).Perm frame) (state : σ) :
    ∃ vectors, trainingVectors rng shuffle state = some vectors := by
  apply DataFrame.exists_values_iff.mpr
  intro row hrow
  exact (generateDataset_rowInSupport rng hshuffle _ _ _ state row hrow).complete

/-- The models are trained inside the support. -/
theorem trainingVectors_inSupport {rng : Generator K σ} {shuffle : DataFrame K → DataFrame K}
    (hshuffle : ∀ frame, (shuffle frame).Perm frame) {state : σ} {vectors : List (List (Double K))}
    (h : trainingVectors rng shuffle state = some vectors) : ∀ vector ∈ vectors, InSupport vector := by
  intro vector hvector entry hentry
  obtain ⟨row, hrow, hcolumns⟩ := DataFrame.exists_row_of_mem_values h hvector
  obtain ⟨x, hx, hlo, hhi⟩ :=
    (generateDataset_rowInSupport rng hshuffle _ _ _ state row hrow).clipped entry hentry
  have hfeature : featureOrder[featureOrder.idxOf entry.1]? = some entry.1 := by
    simp only [clippedFeatures, List.mem_cons, List.not_mem_nil, or_false] at hentry
    rcases hentry with rfl | rfl <;> rfl
  refine ⟨.finite x, ?_, decide_eq_true hlo, decide_eq_true hhi⟩
  rw [featureOf, hcolumns, hfeature, Option.bind_some, hx, Option.map_some]

end Support

end ApiFirewall.Engine
