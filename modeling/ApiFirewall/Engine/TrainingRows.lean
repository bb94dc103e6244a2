import ApiFirewall.Engine.ModelArtifacts

/-!
# The rows that the models are fitted to

Rows and labels go through a shuffle and a split before the trainer selects rows by their labels. The
labels stay with the rows: a row that is selected as benign was drawn as benign traffic, and there are
as many labels of each kind as there are rows.
-/

namespace ApiFirewall.Engine

open ApiFirewall.Wire

/-- What is computed for the elements at some positions is what was computed for all of them. -/
theorem atPositions_of_mapM {α β : Type} {f : α → Option β} {xs : List α} {ys zs : List β}
    {positions : List ℕ} (h : xs.mapM f = some ys) (hzs : atPositions ys positions = some zs) :
    ∃ chosen, atPositions xs positions = some chosen ∧ chosen.mapM f = some zs := by
  have hall := mapM_eq_some_iff.mp hzs
  clear hzs
  induction hall with
  | nil => exact ⟨[], rfl, rfl⟩
  | @cons i z positions zs hi _ ih =>
    obtain ⟨chosen, hchosen, hcomputed⟩ := ih
    rw [getElem?_of_mapM h] at hi
    obtain ⟨x, hx, hfx⟩ := Option.bind_eq_some_iff.mp hi
    refine ⟨x :: chosen, ?_, ?_⟩
    · exact mapM_eq_some_iff.mpr (.cons hx (mapM_eq_some_iff.mp hchosen))
    · exact mapM_eq_some_iff.mpr (.cons hfx (mapM_eq_some_iff.mp hcomputed))

/-- The elements at some positions are elements. -/
theorem mem_of_atPositions {α : Type} {xs chosen : List α} {positions : List ℕ}
    (h : atPositions xs positions = some chosen) {x : α} (hx : x ∈ chosen) : x ∈ xs := by
  obtain ⟨i, -, hi⟩ := exists_of_mem_mapM h hx
  exact List.mem_of_getElem? hi

/-- There are elements at positions within a list. -/
theorem exists_atPositions {α : Type} {xs : List α} {positions : List ℕ}
    (h : ∀ i ∈ positions, i < xs.length) : ∃ chosen, atPositions xs positions = some chosen := by
  apply exists_mapM_iff.mpr
  intro i hi
  have hlt := h i hi
  exact ⟨xs[i], List.getElem?_eq_getElem hlt⟩

/-- There is a result for each element. -/
theorem length_of_mapM {α β : Type} {f : α → Option β} {xs : List α} {ys : List β}
    (h : xs.mapM f = some ys) : ys.length = xs.length :=
  (mapM_eq_some_iff.mp h).length_eq.symm

section Rows

variable {K σ : Type} [Field K] [LinearOrder K]

/-- The feature vector of a row. -/
def vectorOf (row : String → Option K) : Option (List (Double K)) :=
  (featureOrder.mapM row).map fun xs => xs.map .finite

/-- The row is labelled as benign. -/
def LabelledBenign (row : String → Option K) : Prop := row "label" = some 0

instance : DecidablePred (LabelledBenign (K := K)) := fun row =>
  inferInstanceAs (Decidable (row "label" = some 0))

/-- The label of a row tells from which classes it was drawn. -/
structure Drawn (rng : Generator K σ) (nBenign nStuffing nAbuse : ℕ) (state : σ)
    (row : String → Option K) : Prop where
  benign : LabelledBenign row → row ∈ (benign.frame rng nBenign state).1
  attack : ¬ LabelledBenign row → row "label" = some 1 ∧ ∃ state',
    row ∈ (credentialStuffing.frame rng nStuffing state').1 ∨
      row ∈ (businessLogicAbuse.frame rng nAbuse state').1

/-- Every row of a class has the label of the class. -/
theorem label_of_mem_frame {traffic : TrafficClass K} {rng : Generator K σ} {n : ℕ} {state : σ}
    {row : String → Option K} (h : row ∈ (traffic.frame rng n state).1) :
    row "label" = some (traffic.label : K) := by
  obtain ⟨i, -, rfl⟩ := List.mem_map.mp h
  rfl

omit [LinearOrder K] in
/-- A row of an attack has a label that is not the one of benign traffic. -/
theorem attack_of_label {row : String → Option K} (h : row "label" = some ((1 : ℕ) : K)) :
    ¬ LabelledBenign row ∧ row "label" = some 1 := by
  rw [Nat.cast_one] at h
  refine ⟨fun hzero => ?_, h⟩
  rw [LabelledBenign, h] at hzero
  exact one_ne_zero (Option.some.inj hzero)

/-- The rows of a dataset keep their labels. -/
theorem drawn_of_mem {rng : Generator K σ} {shuffle : DataFrame K → DataFrame K}
    (hshuffle : ∀ frame, (shuffle frame).Perm frame) {nBenign nStuffing nAbuse : ℕ} {state : σ}
    {row : String → Option K}
    (h : row ∈ (generateDataset rng shuffle nBenign nStuffing nAbuse state).1) :
    Drawn rng nBenign nStuffing nAbuse state row := by
  have hmem : row ∈ _ ++ _ ++ _ := (hshuffle _).mem_iff.mp h
  rcases List.mem_append.mp hmem with hmem | habuse
  · rcases List.mem_append.mp hmem with hbenign | hstuffing
    · have hlabel : row "label" = some ((0 : ℕ) : K) := label_of_mem_frame hbenign
      rw [Nat.cast_zero] at hlabel
      exact ⟨fun _ => hbenign, fun hnot => absurd hlabel hnot⟩
    · obtain ⟨hnot, hone⟩ := attack_of_label (label_of_mem_frame hstuffing)
      exact ⟨fun hzero => absurd hzero hnot, fun _ => ⟨hone, _, .inl hstuffing⟩⟩
  · obtain ⟨hnot, hone⟩ := attack_of_label (label_of_mem_frame habuse)
    exact ⟨fun hzero => absurd hzero hnot, fun _ => ⟨hone, _, .inr habuse⟩⟩

/-- A dataset has as many rows as are drawn. -/
theorem length_generateDataset {rng : Generator K σ} {shuffle : DataFrame K → DataFrame K}
    (hshuffle : ∀ frame, (shuffle frame).Perm frame) (nBenign nStuffing nAbuse : ℕ) (state : σ) :
    (generateDataset rng shuffle nBenign nStuffing nAbuse state).1.length =
      nBenign + nStuffing + nAbuse := by
  have hcolumns {n : ℕ} (columns : List (String × (Fin n → K))) :
      (DataFrame.ofColumns columns).length = n := (List.length_map _).trans List.length_finRange
  refine (hshuffle _).length_eq.trans ?_
  rw [List.length_append, List.length_append]
  exact congrArg₂ _ (congrArg₂ _ (hcolumns _) (hcolumns _)) (hcolumns _)

/-- The dataset can be split if the positions of the split lie in it. -/
theorem exists_split {lib : Libraries K σ} [IsStrictOrderedRing K]
    (hsample : ∀ frame, (lib.sample frame).Perm frame)
    (hpositions : ∀ labels : List K, labels.length = 7500 → ∃ train test,
      lib.trainTestSplit labels = some (train, test) ∧ ∀ i ∈ train ++ test, i < 7500) :
    ∃ parts, TrainModel.split lib (TrainModel.dataset lib) = some parts := by
  have hlength : (TrainModel.dataset lib).length = 7500 :=
    length_generateDataset hsample 6000 900 600 lib.seed
  obtain ⟨x, hx⟩ := exists_trainingVectors lib.rng hsample lib.seed
  have hlabels : ∀ row ∈ TrainModel.dataset lib, ∃ label, row "label" = some label := by
    intro row hrow
    have hdrawn := drawn_of_mem hsample hrow
    by_cases hbenign : LabelledBenign row
    · exact ⟨0, hbenign⟩
    · exact ⟨1, (hdrawn.attack hbenign).1⟩
  obtain ⟨y, hy⟩ := exists_mapM_iff.mpr hlabels
  have hxlength : x.length = 7500 := (length_of_mapM hx).trans hlength
  have hylength : y.length = 7500 := (length_of_mapM hy).trans hlength
  obtain ⟨train, test, hsplit, hwithin⟩ := hpositions y hylength
  have htrain : ∀ i ∈ train, i < 7500 := fun i hi => hwithin i (List.mem_append_left _ hi)
  have htest : ∀ i ∈ test, i < 7500 := fun i hi => hwithin i (List.mem_append_right _ hi)
  rw [← hxlength] at htrain htest
  obtain ⟨xTrain, hxTrain⟩ := exists_atPositions htrain
  obtain ⟨xTest, hxTest⟩ := exists_atPositions htest
  rw [hxlength, ← hylength] at htrain htest
  obtain ⟨yTrain, hyTrain⟩ := exists_atPositions htrain
  obtain ⟨yTest, hyTest⟩ := exists_atPositions htest
  refine ⟨⟨xTrain, xTest, yTrain, yTest⟩, ?_⟩
  change (TrainModel.dataset lib).values featureOrder = some x at hx
  simp only [TrainModel.split, hx, hy, hsplit, hxTrain, hxTest, hyTrain, hyTest, Option.bind_eq_bind,
    Option.bind_some, Option.pure_def]

omit [Field K] [LinearOrder K] in
/-- The split has the vectors and the labels of some rows of the dataset. -/
theorem rows_of_split {lib : Libraries K σ} {df : DataFrame K} {parts : Split K}
    (h : TrainModel.split lib df = some parts) : ∃ rows : DataFrame K, (∀ row ∈ rows, row ∈ df) ∧
      rows.mapM vectorOf = some parts.xTrain ∧
      rows.mapM (fun row => row "label") = some parts.yTrain := by
  obtain ⟨x, hx, h⟩ := Option.bind_eq_some_iff.mp h
  obtain ⟨y, hy, h⟩ := Option.bind_eq_some_iff.mp h
  obtain ⟨⟨train, test⟩, -, h⟩ := Option.bind_eq_some_iff.mp h
  obtain ⟨xTrain, hxTrain, h⟩ := Option.bind_eq_some_iff.mp h
  obtain ⟨xTest, -, h⟩ := Option.bind_eq_some_iff.mp h
  obtain ⟨yTrain, hyTrain, h⟩ := Option.bind_eq_some_iff.mp h
  obtain ⟨yTest, -, h⟩ := Option.bind_eq_some_iff.mp h
  obtain rfl := Option.some.inj h
  obtain ⟨rows, hrows, hvectors⟩ := atPositions_of_mapM hx hxTrain
  obtain ⟨rows', hrows', hlabels⟩ := atPositions_of_mapM hy hyTrain
  -- the positions are the same for rows and labels
  obtain rfl : rows = rows' := Option.some.inj (hrows.symm.trans hrows')
  exact ⟨rows, fun row hrow => mem_of_atPositions hrows hrow, hvectors, hlabels⟩

omit [Field K] [LinearOrder K] in
/-- There are as many training vectors as the split has positions for them. -/
theorem length_xTrain {lib : Libraries K σ} {df : DataFrame K} {parts : Split K}
    (h : TrainModel.split lib df = some parts) : ∃ labels train test,
      lib.trainTestSplit labels = some (train, test) ∧ parts.xTrain.length = train.length := by
  obtain ⟨x, -, h⟩ := Option.bind_eq_some_iff.mp h
  obtain ⟨y, -, h⟩ := Option.bind_eq_some_iff.mp h
  obtain ⟨⟨train, test⟩, hpositions, h⟩ := Option.bind_eq_some_iff.mp h
  obtain ⟨xTrain, hxTrain, h⟩ := Option.bind_eq_some_iff.mp h
  obtain ⟨xTest, -, h⟩ := Option.bind_eq_some_iff.mp h
  obtain ⟨yTrain, -, h⟩ := Option.bind_eq_some_iff.mp h
  obtain ⟨yTest, -, h⟩ := Option.bind_eq_some_iff.mp h
  obtain rfl := Option.some.inj h
  exact ⟨y, train, test, hpositions, length_of_mapM hxTrain⟩

/-- Selecting vectors by their labels selects the vectors of the rows with the label. -/
theorem vectors_of_benignRows {rows : DataFrame K} {parts : Split K}
    (hvectors : rows.mapM vectorOf = some parts.xTrain)
    (hlabels : rows.mapM (fun row => row "label") = some parts.yTrain) :
    (rows.filter fun row => LabelledBenign row).mapM vectorOf =
      some (TrainModel.benignRows parts) := by
  obtain ⟨xTrain, xTest, yTrain, yTest⟩ := parts
  simp only [TrainModel.benignRows] at hvectors hlabels ⊢
  rw [mapM_eq_some_iff] at hvectors hlabels ⊢
  induction rows generalizing xTrain yTrain with
  | nil =>
    cases hvectors
    exact .nil
  | cons row rows ih =>
    obtain ⟨v, xs, hv, hxs, rfl⟩ := List.forall₂_cons_left_iff.mp hvectors
    obtain ⟨label, ys, hlabel, hys, rfl⟩ := List.forall₂_cons_left_iff.mp hlabels
    have hrest := ih xs ys hxs hys
    by_cases hbenign : LabelledBenign row
    · obtain rfl : label = 0 := Option.some.inj (hlabel.symm.trans hbenign)
      simp only [List.filter_cons, List.zip_cons_cons, hbenign, decide_true, if_true, List.map_cons]
      exact .cons hv hrest
    · have hne : label ≠ 0 := by
        rintro rfl
        exact hbenign hlabel
      simp only [List.filter_cons, List.zip_cons_cons, hbenign, hne, decide_false,
        Bool.false_eq_true, if_false]
      exact hrest

/-- Labels that are zero or one are counted like the rows. -/
theorem countP_labels {rows : DataFrame K} {labels : List K}
    (h : rows.mapM (fun row => row "label") = some labels)
    (hattack : ∀ row ∈ rows, ¬ LabelledBenign row → row "label" = some 1) :
    labels.countP (· = 0) = rows.countP (fun row => LabelledBenign row) ∧
      labels.countP (· = 1) = rows.countP (fun row => ¬ LabelledBenign row) := by
  have hall := mapM_eq_some_iff.mp h
  clear h
  induction hall with
  | nil => exact ⟨rfl, rfl⟩
  | @cons row label rows labels hlabel _ ih =>
    obtain ⟨hrow, hrows⟩ := List.forall_mem_cons.mp hattack
    obtain ⟨hzero, hone⟩ := ih hrows
    simp only [List.countP_cons, hzero, hone]
    by_cases hbenign : LabelledBenign row
    · obtain rfl : label = 0 := Option.some.inj (hlabel.symm.trans hbenign)
      simp [hbenign]
    · obtain rfl : label = 1 := Option.some.inj (hlabel.symm.trans (hrow hbenign))
      simp [hbenign]

end Rows

end ApiFirewall.Engine
