import ApiFirewall.Engine.EnsembleThreatModel
import ApiFirewall.Engine.RecordText
import ApiFirewall.Engine.TrainingData
import ApiFirewall.Wire.IndentedText
import ApiFirewall.Wire.Truncation

/-!
# From training to serving

The trainer splits the dataset, fits the isolation forest to the benign rows of the training part and
the classifier to all of them, and saves three files one after the other: the two models, and a text
with the bounds of the forest's scores over the training part. The engine loads the three files in
that order when it starts, and does not start if one of them cannot be read.

A run of the trainer may be stopped while it writes. A model that is cut short cannot be loaded; a
text that is cut short is a shorter text.
-/

namespace ApiFirewall.Engine

open ApiFirewall.Wire ApiFirewall.Wire.JsonText

/-- A fitted model: its score of a vector, if it has one. -/
abbrev Fitted (K : Type) := List (Double K) → Option K

/-- What the trainer gets from its libraries. The split is given by positions, which are the same for
rows and labels. -/
structure Libraries (K σ : Type) where
  rng : Generator K σ
  seed : σ
  sample : DataFrame K → DataFrame K
  trainTestSplit : List K → Option (List ℕ × List ℕ)
  fitForest : List (List (Double K)) → Option (Fitted K)
  fitBoost : K → List (List (Double K)) → List K → Option (Fitted K)
  report : Fitted K → List (List (Double K)) → List K → Option Unit

/-- The elements of a list at given positions, if there are such. -/
def atPositions {α : Type} (xs : List α) (positions : List ℕ) : Option (List α) :=
  positions.mapM fun i => xs[i]?

/-- Rows and labels, for training and for testing. -/
structure Split (K : Type) where
  xTrain : List (List (Double K))
  xTest : List (List (Double K))
  yTrain : List K
  yTest : List K

/-- What a run has fitted, and the forest's scores over the training rows. -/
structure Training (K : Type) where
  isolationForest : Fitted K
  xgboostModel : Fitted K
  isoScoresTrain : List K
  trainedRows : ℕ

namespace TrainModel

variable {K σ : Type} [Field K] [LinearOrder K]

/-- The dataset of the default size. -/
def dataset (lib : Libraries K σ) : DataFrame K :=
  (generateDataset lib.rng lib.sample 6000 900 600 lib.seed).1

/-- The split of a dataset. -/
def split (lib : Libraries K σ) (df : DataFrame K) : Option (Split K) := do
  let x ← df.values featureOrder
  let y ← df.mapM fun row => row "label"
  let (train, test) ← lib.trainTestSplit y
  return { xTrain := ← atPositions x train, xTest := ← atPositions x test,
           yTrain := ← atPositions y train, yTest := ← atPositions y test }

/-- The training rows with the label of benign traffic. -/
def benignRows (parts : Split K) : List (List (Double K)) :=
  ((parts.xTrain.zip parts.yTrain).filter fun r => r.2 = 0).map Prod.fst

/-- The weight of an attack: how many benign rows there are for each. -/
def posWeight (parts : Split K) : K :=
  (parts.yTrain.countP (· = 0) : ℕ) / (max (parts.yTrain.countP (· = 1)) 1 : ℕ)

/-- Fit both models and evaluate the second one. -/
def train (lib : Libraries K σ) : Option (Training K) := do
  let df := dataset lib
  let parts ← split lib df
  let iso ← lib.fitForest (benignRows parts)
  let isoScoresTrain ← parts.xTrain.mapM iso
  let xgb ← lib.fitBoost (posWeight parts) parts.xTrain parts.yTrain
  lib.report xgb parts.xTest parts.yTest
  return { isolationForest := iso, xgboostModel := xgb, isoScoresTrain, trainedRows := df.length }

/-- What a run has fitted comes from the parts of its dataset. -/
theorem train_eq_some_iff {lib : Libraries K σ} {t : Training K} :
    train lib = some t ↔ ∃ parts, split lib (dataset lib) = some parts ∧
      lib.fitForest (benignRows parts) = some t.isolationForest ∧
      parts.xTrain.mapM t.isolationForest = some t.isoScoresTrain ∧
      lib.fitBoost (posWeight parts) parts.xTrain parts.yTrain = some t.xgboostModel ∧
      lib.report t.xgboostModel parts.xTest parts.yTest = some () ∧
      t.trainedRows = (dataset lib).length := by
  constructor
  · intro h
    obtain ⟨parts, hparts, h⟩ := Option.bind_eq_some_iff.mp h
    obtain ⟨iso, hiso, h⟩ := Option.bind_eq_some_iff.mp h
    obtain ⟨scores, hscores, h⟩ := Option.bind_eq_some_iff.mp h
    obtain ⟨xgb, hxgb, h⟩ := Option.bind_eq_some_iff.mp h
    obtain ⟨_, hreport, h⟩ := Option.bind_eq_some_iff.mp h
    obtain rfl := Option.some.inj h
    exact ⟨parts, hparts, hiso, hscores, hxgb, hreport, rfl⟩
  · rintro ⟨parts, hparts, hiso, hscores, hxgb, hreport, hrows⟩
    simp only [train, hparts, hiso, hscores, hxgb, hreport, ← hrows, Option.bind_eq_bind,
      Option.bind_some, Option.pure_def]

end TrainModel

/-- A file with a saved model. -/
inductive ModelFile (K : Type) where
  | missing
  /-- Opened and not written to its end. -/
  | torn
  | saved (model : Fitted K)

/-- The model of a file that was written to its end. -/
def ModelFile.load {K : Type} : ModelFile K → Option (Fitted K)
  | .saved model => some model
  | _ => none

/-- Only a saved model can be loaded. -/
theorem ModelFile.load_eq_some_iff {K : Type} {file : ModelFile K} {model : Fitted K} :
    file.load = some model ↔ file = .saved model := by
  cases file <;> simp [load]

/-- The files in the directory. -/
structure ModelDir (K : Type) where
  isolationForest : ModelFile K
  xgboostModel : ModelFile K
  metadata : Option Text

/-- A directory without files. -/
def ModelDir.empty {K : Type} : ModelDir K := ⟨.missing, .missing, none⟩

/-- A text is written character by character into a file that is empty when it is opened. -/
def ModelDir.textWrites {K : Type} (text : Text) : List (ModelDir K → ModelDir K) :=
  (List.range (text.length + 1)).map fun n dir => { dir with metadata := some (text.take n) }

/-- The first steps of writing a text leave a beginning of it. -/
theorem ModelDir.textWrites_take {K : Type} (text : Text) (n : ℕ) (dir : ModelDir K) :
    ((textWrites text).take (n + 1)).foldl (fun dir write => write dir) dir =
      { dir with metadata := some (text.take n) } := by
  have hall : ∀ m : ℕ, ((List.range (m + 1)).map fun n (dir : ModelDir K) =>
      { dir with metadata := some (text.take n) }).foldl (fun dir write => write dir) dir =
        { dir with metadata := some (text.take m) } := by
    intro m
    induction m with
    | zero => rfl
    | succ m ih =>
      rw [List.range_succ, List.map_append, List.foldl_append, ih]
      rfl
  rw [textWrites, ← List.map_take, List.take_range, Nat.add_min_add_right, hall]
  by_cases hn : n ≤ text.length
  · rw [Nat.min_eq_left hn]
  · have hlength := Nat.le_of_not_le hn
    rw [Nat.min_eq_right hlength, List.take_of_length_le le_rfl, List.take_of_length_le hlength]

namespace Training

variable {K : Type} [LinearOrder K] (t : Training K) (repr : K → String)

/-- The metadata, given the bounds of the scores. -/
def metadataOf (isoScoreMin isoScoreMax : K) : List (Text × Json K) :=
  [("feature_order", .arr (featureOrder.map fun name : String => .str name)),
   ("iso_score_min", .real (.finite isoScoreMin)),
   ("iso_score_max", .real (.finite isoScoreMax)),
   ("trained_rows", .int t.trainedRows)]

/-- The metadata, if there are scores. -/
def metadata : Option (List (Text × Json K)) := do
  let isoScoreMin ← t.isoScoresTrain.min?
  let isoScoreMax ← t.isoScoresTrain.max?
  return t.metadataOf isoScoreMin isoScoreMax

/-- The text of the metadata, given the texts of doubles. -/
def metadataText : Option Text :=
  t.metadata.map fun members => Style.ascii.writeIndented (withConstants repr) 2 0 (.obj members)

/-- The steps in which the three files are written. -/
def writes : List (ModelDir K → ModelDir K) :=
  [fun dir => { dir with isolationForest := .torn },
   fun dir => { dir with isolationForest := .saved t.isolationForest },
   fun dir => { dir with xgboostModel := .torn },
   fun dir => { dir with xgboostModel := .saved t.xgboostModel }] ++
  ((t.metadataText repr).map ModelDir.textWrites).getD []

/-- The directory after some steps of the writing. -/
def save (steps : ℕ) (dir : ModelDir K) : ModelDir K :=
  ((t.writes repr).take steps).foldl (fun dir write => write dir) dir

/-- After the two models come the steps of the text. -/
theorem save_add_five (n : ℕ) (dir : ModelDir K) :
    t.save repr (n + 5) dir =
      { isolationForest := .saved t.isolationForest, xgboostModel := .saved t.xgboostModel,
        metadata := match t.metadataText repr with
          | none => dir.metadata
          | some text => some (text.take n) } := by
  have hsave : t.save repr (n + 5) dir =
      ((((t.metadataText repr).map ModelDir.textWrites).getD []).take (n + 1)).foldl
        (fun dir write => write dir) ⟨.saved t.isolationForest, .saved t.xgboostModel, dir.metadata⟩ :=
    rfl
  rw [hsave]
  cases t.metadataText repr with
  | none => rfl
  | some text => exact ModelDir.textWrites_take text n _

/-- The forest's file is left alone only by a run that has not begun to write. -/
theorem save_isolationForest {steps : ℕ} (hsteps : 0 < steps) (dir : ModelDir K) :
    (t.save repr steps dir).isolationForest =
      if steps = 1 then .torn else .saved t.isolationForest := by
  match steps with
  | 1 | 2 | 3 | 4 => rfl
  | n + 5 =>
    rw [save_add_five]
    rfl

/-- The classifier's file is left alone until the forest's is written. -/
theorem save_xgboostModel (steps : ℕ) (dir : ModelDir K) :
    (t.save repr steps dir).xgboostModel =
      if steps ≤ 2 then dir.xgboostModel
      else if steps = 3 then .torn else .saved t.xgboostModel := by
  match steps with
  | 0 | 1 | 2 | 3 | 4 => rfl
  | n + 5 =>
    rw [save_add_five]
    rfl

/-- The metadata are left alone until both models are written. -/
theorem save_metadata (steps : ℕ) (dir : ModelDir K) :
    (t.save repr steps dir).metadata =
      if steps ≤ 4 then dir.metadata
      else match t.metadataText repr with
        | none => dir.metadata
        | some text => some (text.take (steps - 5)) := by
  match steps with
  | 0 | 1 | 2 | 3 | 4 => rfl
  | n + 5 =>
    rw [save_add_five]
    rfl

end Training

/-- A run of the trainer, and after how many steps of its writing it was stopped. -/
structure TrainerRun (K σ : Type) where
  libraries : Libraries K σ
  steps : ℕ

section Runs

variable {K σ : Type} [Field K] [LinearOrder K] (repr : K → String)

/-- What a run does to the directory. -/
def TrainModel.main (run : TrainerRun K σ) (dir : ModelDir K) : ModelDir K :=
  match TrainModel.train run.libraries with
  | none => dir
  | some t => t.save repr run.steps dir

/-- The directory after runs of the trainer, one after the other. -/
def modelDirAfter (history : List (TrainerRun K σ)) : ModelDir K :=
  history.foldl (fun dir run => TrainModel.main repr run dir) .empty

end Runs

/-- The attributes of a model object. -/
structure ModelObject (K : Type) where
  isolationForest : Option (Fitted K)
  xgbModel : Option (Fitted K)
  isoScoreMin : Json K
  isoScoreMax : Json K

namespace ModelObject

variable {K : Type}

/-- A new object has no models. -/
def fresh [Field K] : ModelObject K :=
  ⟨none, none, .real (.finite (-decimal 5 1)), .real (.finite (decimal 5 1))⟩

/-- The metadata in the directory. -/
def readMetadata (decimal : Text → Double K) (dir : ModelDir K) :
    Option (List (Text × Json K)) := do
  match ← readDocument (KafkaConsumer.dialect decimal) (← dir.metadata) with
  | .obj members => some members
  | _ => none

/-- Load the artifacts. Each is assigned as soon as it is read; whether all of them could be, and the
object as it is then. -/
def load (decimal : Text → Double K) (dir : ModelDir K) (object : ModelObject K) :
    Bool × ModelObject K :=
  match dir.isolationForest.load with
  | none => (false, object)
  | some forest =>
    let object := { object with isolationForest := some forest }
    match dir.xgboostModel.load with
    | none => (false, object)
    | some xgb =>
      let object := { object with xgbModel := some xgb }
      match readMetadata decimal dir with
      | none => (false, object)
      | some members =>
        match member members "iso_score_min" with
        | none => (false, object)
        | some isoScoreMin =>
          let object := { object with isoScoreMin }
          match member members "iso_score_max" with
          | none => (false, object)
          | some isoScoreMax => (true, { object with isoScoreMax })

/-- The object that the engine serves with, if it starts. -/
def lifespan [Field K] (decimal : Text → Double K) (dir : ModelDir K) :
    Option (ModelObject K) :=
  match load decimal dir fresh with
  | (true, object) => some object
  | (false, _) => none

/-- The model of an object whose attributes are two models and two numbers. -/
def model? (object : ModelObject K) : Option (EnsembleThreatModel K) :=
  match object.isolationForest, object.xgbModel, object.isoScoreMin, object.isoScoreMax with
  | some decisionFunction, some predictProba, .real (.finite isoScoreMin),
      .real (.finite isoScoreMax) =>
    some { decisionFunction, predictProba, isoScoreMin, isoScoreMax }
  | _, _, _, _ => none

/-- The engine starts exactly if it can read the three files and the metadata has the bounds. -/
theorem lifespan_eq_some_iff [Field K] {decimal : Text → Double K} {dir : ModelDir K}
    {object : ModelObject K} : lifespan decimal dir = some object ↔
      ∃ forest xgb members isoScoreMin isoScoreMax,
        dir.isolationForest = .saved forest ∧ dir.xgboostModel = .saved xgb ∧
        readMetadata decimal dir = some members ∧
        member members "iso_score_min" = some isoScoreMin ∧
        member members "iso_score_max" = some isoScoreMax ∧
        object = ⟨some forest, some xgb, isoScoreMin, isoScoreMax⟩ := by
  constructor
  · intro h
    cases hforest : dir.isolationForest.load with
    | none => simp [lifespan, load, hforest] at h
    | some forest =>
      cases hxgb : dir.xgboostModel.load with
      | none => simp [lifespan, load, hforest, hxgb] at h
      | some xgb =>
        cases hmembers : readMetadata decimal dir with
        | none => simp [lifespan, load, hforest, hxgb, hmembers] at h
        | some members =>
          cases hmin : member members "iso_score_min" with
          | none => simp [lifespan, load, hforest, hxgb, hmembers, hmin] at h
          | some isoScoreMin =>
            cases hmax : member members "iso_score_max" with
            | none => simp [lifespan, load, hforest, hxgb, hmembers, hmin, hmax] at h
            | some isoScoreMax =>
              simp only [lifespan, load, hforest, hxgb, hmembers, hmin, hmax, Option.some.injEq] at h
              exact ⟨forest, xgb, members, isoScoreMin, isoScoreMax,
                ModelFile.load_eq_some_iff.mp hforest, ModelFile.load_eq_some_iff.mp hxgb, rfl,
                hmin, hmax, h.symm⟩
  · rintro ⟨forest, xgb, members, isoScoreMin, isoScoreMax, hforest, hxgb, hmembers, hmin, hmax, rfl⟩
    have hforest := ModelFile.load_eq_some_iff.mpr hforest
    have hxgb := ModelFile.load_eq_some_iff.mpr hxgb
    simp only [lifespan, load, hforest, hxgb, hmembers, hmin, hmax]

end ModelObject

end ApiFirewall.Engine
