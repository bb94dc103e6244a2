import ApiFirewall.Engine.TrainingRows
import ApiFirewall.Guarantees.EnsembleScore
import ApiFirewall.Guarantees.TelemetryText

/-!
# The models that the engine serves

Runs of the trainer write into one directory, and any of them may be stopped at any moment. The engine
starts only with three whole files. If the last run that has written anything came to its end, all
three are its own, and the bounds are those of the forest's scores: no training row is clipped, the
order of the scores is kept, and the extremes are mapped to the ends of the unit interval. If that
run was stopped between two files, its forest is served with what earlier runs have left. If it was
stopped within a file, the engine does not start.
-/

namespace ApiFirewall.Guarantees

open ApiFirewall.Wire ApiFirewall.Wire.JsonText ApiFirewall.Engine

section Definitions

variable {K σ : Type} [Field K] [LinearOrder K]

/-- What the runs have fitted, in order. -/
def trainings (history : List (TrainerRun K σ)) : List (Training K) :=
  history.filterMap fun run => TrainModel.train run.libraries

/-- What a run that has written anything has fitted, and how many steps it took. -/
def writing (run : TrainerRun K σ) : Option (Training K × ℕ) :=
  if run.steps = 0 then none else (TrainModel.train run.libraries).map fun t => (t, run.steps)

/-- The last run that has written anything. -/
def lastWriting (history : List (TrainerRun K σ)) : Option (Training K × ℕ) :=
  history.reverse.findSome? writing

/-- The texts of the bounds denote the bounds. -/
def BoundsDenoted (decimal : Text → Double K) (repr : K → String) (t : Training K) : Prop :=
  ∀ x, t.isoScoresTrain.min? = some x ∨ t.isoScoresTrain.max? = some x →
    Denoted (KafkaConsumer.dialect decimal) (withConstants repr) (.finite x)

/-- The run has written all three files. -/
def Finished (repr : K → String) (t : Training K) (steps : ℕ) : Prop :=
  ∃ text, t.metadataText repr = some text ∧ text.length + 5 ≤ steps

/-- The run was stopped after one of the models and before the next file. -/
def BetweenFiles (repr : K → String) (t : Training K) (steps : ℕ) : Prop :=
  steps = 2 ∨ steps = 4 ∨ (4 < steps ∧ t.metadataText repr = none)

/-- The bounds of a model are those of some scores, and its scale is the one of the scores. -/
structure Calibrated (model : EnsembleThreatModel K) (scores : List K) : Prop where
  least : IsLeast {x | x ∈ scores} model.isoScoreMin
  greatest : IsGreatest {x | x ∈ scores} model.isoScoreMax
  unclipped : ∀ raw ∈ scores, model.normalizeIso raw =
    (model.isoScoreMax - raw) / max (model.isoScoreMax - model.isoScoreMin) (1 / powerOfTen 6)
  strictAnti : StrictAntiOn model.normalizeIso {x | x ∈ scores}
  ends : 1 / powerOfTen 6 ≤ model.isoScoreMax - model.isoScoreMin →
    model.normalizeIso model.isoScoreMin = 1 ∧ model.normalizeIso model.isoScoreMax = 0

end Definitions

section Calibration

variable {K : Type} [Field K] [LinearOrder K] [IsStrictOrderedRing K]

/-- A model whose bounds are those of the scores is calibrated. -/
theorem calibrated_of_bounds {model : EnsembleThreatModel K} {scores : List K}
    (hleast : IsLeast {x | x ∈ scores} model.isoScoreMin)
    (hgreatest : IsGreatest {x | x ∈ scores} model.isoScoreMax) : Calibrated model scores := by
  have hspan : (0 : K) < max (model.isoScoreMax - model.isoScoreMin) (1 / powerOfTen 6) :=
    (one_div_pos.mpr (powerOfTen_pos 6)).trans_le (le_max_right _ _)
  have hunclipped : ∀ raw ∈ scores, model.normalizeIso raw =
      (model.isoScoreMax - raw) / max (model.isoScoreMax - model.isoScoreMin) (1 / powerOfTen 6) := by
    intro raw hraw
    have hlow : 0 ≤ model.isoScoreMax - raw := sub_nonneg.mpr (hgreatest.2 hraw)
    have hhigh : model.isoScoreMax - raw ≤
        max (model.isoScoreMax - model.isoScoreMin) (1 / powerOfTen 6) :=
      (sub_le_sub_left (hleast.2 hraw) _).trans (le_max_left _ _)
    unfold EnsembleThreatModel.normalizeIso
    dsimp only
    rw [max_eq_left (div_nonneg hlow hspan.le), min_eq_left ((div_le_one hspan).mpr hhigh)]
  refine ⟨hleast, hgreatest, hunclipped, ?_, fun hwide => ?_⟩
  · intro raw hraw raw' hraw' hlt
    rw [hunclipped raw hraw, hunclipped raw' hraw']
    exact div_lt_div_of_pos_right (sub_lt_sub_left hlt _) hspan
  · rw [hunclipped _ hleast.1, hunclipped _ hgreatest.1, max_eq_left hwide, sub_self, zero_div]
    rw [max_eq_left hwide] at hspan
    exact ⟨div_self hspan.ne', rfl⟩

end Calibration

section Metadata

variable {K : Type} [LinearOrder K] {decimal : Text → Double K} {repr : K → String}
variable {t : Training K} {text : Text}

/-- The text is set from the least and the greatest score. -/
theorem metadataText_eq_some_iff : t.metadataText repr = some text ↔
    ∃ isoScoreMin isoScoreMax, t.isoScoresTrain.min? = some isoScoreMin ∧
      t.isoScoresTrain.max? = some isoScoreMax ∧
      text = Style.ascii.writeIndented (withConstants repr) 2 0
        (.obj (t.metadataOf isoScoreMin isoScoreMax)) := by
  constructor
  · intro h
    obtain ⟨members, hmembers, rfl⟩ := Option.map_eq_some_iff.mp h
    obtain ⟨isoScoreMin, hmin, hmembers⟩ := Option.bind_eq_some_iff.mp hmembers
    obtain ⟨isoScoreMax, hmax, hmembers⟩ := Option.bind_eq_some_iff.mp hmembers
    obtain rfl := Option.some.inj hmembers
    exact ⟨isoScoreMin, isoScoreMax, hmin, hmax, rfl⟩
  · rintro ⟨isoScoreMin, isoScoreMax, hmin, hmax, rfl⟩
    simp [Training.metadataText, Training.metadata, hmin, hmax]

/-- The whole text is read as an object that has the bounds. -/
theorem readDocument_metadataText (h : t.metadataText repr = some text)
    (hdenoted : BoundsDenoted decimal repr t) : ∃ members isoScoreMin isoScoreMax,
      readDocument (KafkaConsumer.dialect decimal) text = some (.obj members) ∧
      t.isoScoresTrain.min? = some isoScoreMin ∧ t.isoScoresTrain.max? = some isoScoreMax ∧
      member members "iso_score_min" = some (.real (.finite isoScoreMin)) ∧
      member members "iso_score_max" = some (.real (.finite isoScoreMax)) := by
  obtain ⟨isoScoreMin, isoScoreMax, hmin, hmax, rfl⟩ := metadataText_eq_some_iff.mp h
  refine ⟨t.metadataOf isoScoreMin isoScoreMax, isoScoreMin, isoScoreMax, ?_, hmin, hmax, rfl, rfl⟩
  have hreal : ∀ x : Double K, x = .finite isoScoreMin ∨ x = .finite isoScoreMax →
      Legible (KafkaConsumer.dialect decimal) (withConstants repr x) (.real x) := by
    intro x hx
    rcases hx with rfl | rfl
    · exact (hdenoted isoScoreMin (.inl hmin)).legible
    · exact (hdenoted isoScoreMax (.inr hmax)).legible
  apply Style.readDocument_writeIndented hreal
  refine .obj (fun m hm => ?_) fun m hm => ?_
  · simp only [Training.metadataOf, List.mem_cons, List.not_mem_nil, or_false] at hm
    rcases hm with rfl | rfl | rfl | rfl <;> exact Text.unpaired_ofString _
  simp only [Training.metadataOf, List.mem_cons, List.not_mem_nil, or_false] at hm
  rcases hm with rfl | rfl | rfl | rfl
  · refine .arr fun v hv => ?_
    obtain ⟨name, -, rfl⟩ := List.mem_map.mp hv
    exact .str (Text.unpaired_ofString _)
  · exact .real (.inl rfl)
  · exact .real (.inr rfl)
  · exact .int _

/-- A text that is cut short is not read. -/
theorem readDocument_metadataText_take (h : t.metadataText repr = some text)
    (hdenoted : BoundsDenoted decimal repr t) {n : ℕ} (hn : n < text.length) :
    readDocument (KafkaConsumer.dialect decimal) (text.take n) = none := by
  obtain ⟨members, _, _, hread, -⟩ := readDocument_metadataText h hdenoted
  obtain ⟨_, _, -, -, rfl⟩ := metadataText_eq_some_iff.mp h
  obtain ⟨hopen, hclose⟩ := @Style.braces_writeIndented K Style.ascii (withConstants repr) 2 0 _
  exact readDocument_take hopen hclose hread hn

/-- Metadata that are read have been written to their end, and have the bounds of the scores. -/
theorem bounds_of_readMetadata (h : t.metadataText repr = some text)
    (hdenoted : BoundsDenoted decimal repr t) {dir : ModelDir K} {n : ℕ}
    (hdir : dir.metadata = some (text.take n)) {members : List (Text × Json K)}
    (hread : ModelObject.readMetadata decimal dir = some members) {low high : Json K}
    (hlow : member members "iso_score_min" = some low)
    (hhigh : member members "iso_score_max" = some high) :
    text.length ≤ n ∧ ∃ isoScoreMin isoScoreMax,
      low = .real (.finite isoScoreMin) ∧ high = .real (.finite isoScoreMax) ∧
      IsLeast {x | x ∈ t.isoScoresTrain} isoScoreMin ∧
      IsGreatest {x | x ∈ t.isoScoresTrain} isoScoreMax := by
  rw [ModelObject.readMetadata, hdir] at hread
  obtain ⟨_, hcut, hread⟩ := Option.bind_eq_some_iff.mp hread
  obtain rfl := Option.some.inj hcut
  obtain ⟨v, hv, hmembers⟩ := Option.bind_eq_some_iff.mp hread
  by_cases hn : n < text.length
  · rw [readDocument_metadataText_take h hdenoted hn] at hv
    cases hv
  · have hlength := Nat.not_lt.mp hn
    refine ⟨hlength, ?_⟩
    obtain ⟨members', isoScoreMin, isoScoreMax, hwhole, hmin, hmax, hlow', hhigh'⟩ :=
      readDocument_metadataText h hdenoted
    rw [List.take_of_length_le hlength, hwhole] at hv
    obtain rfl := Option.some.inj hv
    obtain rfl := Option.some.inj hmembers
    rw [hlow] at hlow'
    rw [hhigh] at hhigh'
    exact ⟨isoScoreMin, isoScoreMax, Option.some.inj hlow', Option.some.inj hhigh',
      List.min?_eq_some_iff.mp hmin, List.max?_eq_some_iff.mp hmax⟩

end Metadata

section Directory

variable {K σ : Type} [Field K] [LinearOrder K] {repr : K → String}

/-- A run has written if it has fitted the models and taken a step. -/
theorem writing_eq_some_iff {run : TrainerRun K σ} {last : Training K × ℕ} :
    writing run = some last ↔
      0 < run.steps ∧ ∃ t, TrainModel.train run.libraries = some t ∧ last = (t, run.steps) := by
  unfold writing
  rcases Nat.eq_zero_or_pos run.steps with hzero | hpos
  · simp [hzero]
  · rw [if_neg hpos.ne', Option.map_eq_some_iff]
    simp [hpos, eq_comm]

/-- A run that has not written leaves the directory as it was. -/
theorem main_of_writing_none {run : TrainerRun K σ} (h : writing run = none) (dir : ModelDir K) :
    TrainModel.main repr run dir = dir := by
  unfold TrainModel.main
  cases htrain : TrainModel.train run.libraries with
  | none => rfl
  | some t =>
    have hzero : run.steps = 0 := by
      by_contra hne
      rw [writing, if_neg hne, htrain] at h
      cases h
    dsimp only
    rw [hzero]
    rfl

/-- Every whole model in the directory, and every text, is from one of the trainings; a text may be cut
short. -/
structure Sourced (repr : K → String) (ts : List (Training K)) (dir : ModelDir K) : Prop where
  isolationForest : ∀ forest, dir.isolationForest = .saved forest →
    ∃ t ∈ ts, forest = t.isolationForest
  xgboostModel : ∀ xgb, dir.xgboostModel = .saved xgb → ∃ t ∈ ts, xgb = t.xgboostModel
  metadata : ∀ text, dir.metadata = some text →
    ∃ t ∈ ts, ∃ whole n, t.metadataText repr = some whole ∧ text = whole.take n

/-- A run leaves what it has written and what was there. -/
theorem Sourced.main {ts : List (Training K)} {dir : ModelDir K} (h : Sourced repr ts dir)
    {run : TrainerRun K σ} (hrun : ∀ t, TrainModel.train run.libraries = some t → t ∈ ts) :
    Sourced repr ts (TrainModel.main repr run dir) := by
  unfold TrainModel.main
  cases htrain : TrainModel.train run.libraries with
  | none => exact h
  | some t =>
    have ht := hrun t htrain
    constructor
    · intro forest hforest
      rcases Nat.eq_zero_or_pos run.steps with hzero | hpos
      · rw [hzero] at hforest
        exact h.isolationForest forest hforest
      · dsimp only at hforest
        rw [t.save_isolationForest repr hpos] at hforest
        split at hforest
        · cases hforest
        · cases hforest
          exact ⟨t, ht, rfl⟩
    · intro xgb hxgb
      dsimp only at hxgb
      rw [t.save_xgboostModel repr] at hxgb
      split at hxgb
      · exact h.xgboostModel xgb hxgb
      · split at hxgb
        · cases hxgb
        · cases hxgb
          exact ⟨t, ht, rfl⟩
    · intro text htext
      dsimp only at htext
      rw [t.save_metadata repr] at htext
      split at htext
      · exact h.metadata text htext
      · cases hwhole : t.metadataText repr with
        | none =>
          rw [hwhole] at htext
          exact h.metadata text htext
        | some whole =>
          rw [hwhole] at htext
          exact ⟨t, ht, whole, run.steps - 5, hwhole, (Option.some.inj htext).symm⟩

/-- After any runs the directory holds what they have written. -/
theorem sourced_modelDirAfter (history : List (TrainerRun K σ)) :
    Sourced repr (trainings history) (modelDirAfter repr history) := by
  have hall : ∀ (rest : List (TrainerRun K σ)) (dir : ModelDir K),
      (∀ run ∈ rest, run ∈ history) → Sourced repr (trainings history) dir →
      Sourced repr (trainings history)
        (rest.foldl (fun dir run => TrainModel.main repr run dir) dir) := by
    intro rest
    induction rest with
    | nil => exact fun _ _ hdir => hdir
    | cons run rest ih =>
      intro dir hmem hdir
      obtain ⟨hrun, hrest⟩ := List.forall_mem_cons.mp hmem
      exact ih _ hrest (hdir.main fun t ht => List.mem_filterMap.mpr ⟨run, hrun, ht⟩)
  refine hall history .empty (fun _ hrun => hrun) ?_
  constructor
  · intro _ hforest
    cases hforest
  · intro _ hxgb
    cases hxgb
  · intro _ htext
    cases htext

/-- The directory is the one that the last run with any step has left, or it is empty. -/
theorem modelDirAfter_lastWriting (history : List (TrainerRun K σ)) :
    (lastWriting history = none ∧ modelDirAfter repr history = .empty) ∨
      ∃ t steps dir, lastWriting history = some (t, steps) ∧ t ∈ trainings history ∧ 0 < steps ∧
        modelDirAfter repr history = t.save repr steps dir := by
  induction history using List.reverseRecOn with
  | nil => exact .inl ⟨rfl, rfl⟩
  | append_singleton history run ih =>
    have hafter : modelDirAfter repr (history ++ [run]) =
        TrainModel.main repr run (modelDirAfter repr history) := by
      simp [modelDirAfter]
    have hsubset : ∀ t ∈ trainings history, t ∈ trainings (history ++ [run]) := by
      intro t ht
      rw [trainings, List.filterMap_append]
      exact List.mem_append_left _ ht
    rw [hafter, lastWriting, List.reverse_concat]
    cases hwriting : writing run with
    | none =>
      rw [List.findSome?_cons_of_isNone (by rw [hwriting]; rfl), main_of_writing_none hwriting]
      exact ih.imp_right fun ⟨t, steps, dir, hlast, ht, h⟩ => ⟨t, steps, dir, hlast, hsubset t ht, h⟩
    | some last =>
      obtain ⟨hpos, t, htrain, rfl⟩ := writing_eq_some_iff.mp hwriting
      rw [List.findSome?_cons_of_isSome (by rw [hwriting]; rfl), hwriting]
      have ht : t ∈ trainings (history ++ [run]) :=
        List.mem_filterMap.mpr ⟨run, List.mem_append_right _ (List.mem_singleton_self run), htrain⟩
      refine .inr ⟨t, run.steps, modelDirAfter repr history, rfl, ht, hpos, ?_⟩
      rw [TrainModel.main, htrain]

end Directory

section Serving

variable {K σ : Type} [Field K] [LinearOrder K] {decimal : Text → Double K}
variable {repr : K → String} {history : List (TrainerRun K σ)} {object : ModelObject K}

/-- An engine that starts has two whole models and the bounds of some scores: those of any training
whose text, or a beginning of it, is in the directory. -/
theorem parts_of_lifespan (hdenoted : ∀ t ∈ trainings history, BoundsDenoted decimal repr t)
    (h : ModelObject.lifespan decimal (modelDirAfter repr history) = some object) :
    ∃ model, object.model? = some model ∧
      (modelDirAfter repr history).isolationForest = .saved model.decisionFunction ∧
      (modelDirAfter repr history).xgboostModel = .saved model.predictProba ∧
      (∃ t ∈ trainings history, IsLeast {x | x ∈ t.isoScoresTrain} model.isoScoreMin ∧
        IsGreatest {x | x ∈ t.isoScoresTrain} model.isoScoreMax) ∧
      ∀ t ∈ trainings history, ∀ text n, t.metadataText repr = some text →
        (modelDirAfter repr history).metadata = some (text.take n) →
        text.length ≤ n ∧ IsLeast {x | x ∈ t.isoScoresTrain} model.isoScoreMin ∧
          IsGreatest {x | x ∈ t.isoScoresTrain} model.isoScoreMax := by
  obtain ⟨forest, xgb, members, low, high, hforest, hxgb, hmembers, hlow, hhigh, rfl⟩ :=
    ModelObject.lifespan_eq_some_iff.mp h
  have hbounds : ∀ t ∈ trainings history, ∀ text n, t.metadataText repr = some text →
      (modelDirAfter repr history).metadata = some (text.take n) →
      text.length ≤ n ∧ ∃ isoScoreMin isoScoreMax,
        low = .real (.finite isoScoreMin) ∧ high = .real (.finite isoScoreMax) ∧
        IsLeast {x | x ∈ t.isoScoresTrain} isoScoreMin ∧
        IsGreatest {x | x ∈ t.isoScoresTrain} isoScoreMax :=
    fun t ht text n htext hdir =>
      bounds_of_readMetadata htext (hdenoted t ht) hdir hmembers hlow hhigh
  obtain ⟨text, hmetadata, -⟩ := Option.bind_eq_some_iff.mp hmembers
  obtain ⟨t, ht, whole, n, hwhole, rfl⟩ := (sourced_modelDirAfter history).metadata text hmetadata
  obtain ⟨-, isoScoreMin, isoScoreMax, rfl, rfl, hleast, hgreatest⟩ :=
    hbounds t ht whole n hwhole hmetadata
  refine ⟨⟨forest, xgb, isoScoreMin, isoScoreMax⟩, rfl, hforest, hxgb,
    ⟨t, ht, hleast, hgreatest⟩, fun t' ht' text' n' htext' hdir' => ?_⟩
  obtain ⟨hlength, _, _, hmin, hmax, hleast', hgreatest'⟩ := hbounds t' ht' text' n' htext' hdir'
  cases hmin
  cases hmax
  exact ⟨hlength, hleast', hgreatest'⟩

/-- The engine starts after a run that has come to its end. -/
theorem lifespan_of_finished (hdenoted : ∀ t ∈ trainings history, BoundsDenoted decimal repr t)
    {t : Training K} {steps : ℕ} (hlast : lastWriting history = some (t, steps))
    (hfinished : Finished repr t steps) :
    ∃ object, ModelObject.lifespan decimal (modelDirAfter repr history) = some object := by
  obtain ⟨text, htext, hsteps⟩ := hfinished
  rcases @modelDirAfter_lastWriting _ _ _ _ repr history with
    ⟨hnone, -⟩ | ⟨t', steps', dir, hlast', ht, hpos, hsave⟩
  · rw [hlast] at hnone
    cases hnone
  · rw [hlast] at hlast'
    obtain ⟨rfl, rfl⟩ := Prod.mk.inj (Option.some.inj hlast')
    obtain ⟨members, isoScoreMin, isoScoreMax, hread, -, -, hlow, hhigh⟩ :=
      readDocument_metadataText htext (hdenoted t ht)
    obtain ⟨n, rfl⟩ := Nat.exists_eq_add_of_le' (Nat.le_of_add_left_le hsteps)
    have hwhole : text.take n = text := List.take_of_length_le (by omega)
    rw [hsave, Training.save_add_five, htext]
    dsimp only
    rw [hwhole]
    refine ⟨_, ModelObject.lifespan_eq_some_iff.mpr ⟨_, _, members, _, _, rfl, rfl, ?_, hlow, hhigh,
      rfl⟩⟩
    simp [ModelObject.readMetadata, hread]

/-- What the engine serves with if it starts: a forest of the last run that has written, a classifier
and bounds of some runs. If that run came to its end, all are its own, and the scale is the one of its
scores; otherwise it was stopped between two files. -/
theorem served_models [IsStrictOrderedRing K]
    (hdenoted : ∀ t ∈ trainings history, BoundsDenoted decimal repr t) :
    (∀ object, ModelObject.lifespan decimal (modelDirAfter repr history) = some object →
      ∃ model t steps, object.model? = some model ∧ lastWriting history = some (t, steps) ∧
        model.decisionFunction = t.isolationForest ∧
        (∃ t' ∈ trainings history, model.predictProba = t'.xgboostModel) ∧
        (∃ t' ∈ trainings history, Calibrated model t'.isoScoresTrain) ∧
        (BetweenFiles repr t steps ∨ (Finished repr t steps ∧
          model.predictProba = t.xgboostModel ∧ Calibrated model t.isoScoresTrain))) ∧
    (∀ t steps, lastWriting history = some (t, steps) → Finished repr t steps →
      ∃ object, ModelObject.lifespan decimal (modelDirAfter repr history) = some object) := by
  refine ⟨fun object h => ?_, fun t steps hlast => lifespan_of_finished hdenoted hlast⟩
  obtain ⟨model, hmodel, hforest, hxgb, ⟨t', ht', hleast, hgreatest⟩, hbounds⟩ :=
    parts_of_lifespan hdenoted h
  have hclassifier := (sourced_modelDirAfter history).xgboostModel _ hxgb
  have hscale := calibrated_of_bounds hleast hgreatest
  rcases @modelDirAfter_lastWriting _ _ _ _ repr history with
    ⟨-, hempty⟩ | ⟨t, steps, dir, hlast, ht, hpos, hsave⟩
  · rw [hempty] at hforest
    cases hforest
  · rw [hsave, t.save_isolationForest repr hpos] at hforest
    rw [hsave, t.save_xgboostModel repr] at hxgb
    have hdecision : model.decisionFunction = t.isolationForest := by
      split at hforest
      · cases hforest
      · exact (ModelFile.saved.inj hforest).symm
    refine ⟨model, t, steps, hmodel, hlast, hdecision, hclassifier, ⟨t', ht', hscale⟩, ?_⟩
    -- a run that was stopped within a file has left one that cannot be loaded
    match steps with
    | 1 => cases hforest
    | 2 => exact .inl (.inl rfl)
    | 3 => cases hxgb
    | 4 => exact .inl (.inr (.inl rfl))
    | n + 5 =>
      cases hwhole : t.metadataText repr with
      | none => exact .inl (.inr (.inr ⟨by omega, hwhole⟩))
      | some whole =>
        have hmetadata : (modelDirAfter repr history).metadata = some (whole.take n) := by
          rw [hsave, t.save_add_five, hwhole]
        obtain ⟨hlength, hleast, hgreatest⟩ := hbounds t ht whole n hwhole hmetadata
        exact .inr ⟨⟨whole, hwhole, by omega⟩, (ModelFile.saved.inj hxgb).symm,
          calibrated_of_bounds hleast hgreatest⟩

/-- The forest that the engine serves was fitted, in some run, to the vectors of exactly those training
rows that were drawn as benign traffic; the weight of an attack in that run is how many of them there
are for each other training row. -/
theorem served_forest_benign
    (hsample : ∀ run ∈ history, ∀ frame, (run.libraries.sample frame).Perm frame)
    (h : ModelObject.lifespan decimal (modelDirAfter repr history) = some object) :
    ∃ run ∈ history, ∃ (parts : Split K) (rows : DataFrame K),
      TrainModel.split run.libraries (TrainModel.dataset run.libraries) = some parts ∧
      (∀ row ∈ rows, Drawn run.libraries.rng 6000 900 600 run.libraries.seed row) ∧
      rows.mapM vectorOf = some parts.xTrain ∧
      (rows.filter fun row => LabelledBenign row).mapM vectorOf =
        some (TrainModel.benignRows parts) ∧
      object.isolationForest = run.libraries.fitForest (TrainModel.benignRows parts) ∧
      TrainModel.posWeight parts = (rows.countP fun row => LabelledBenign row : ℕ) /
        (max (rows.countP fun row => ¬ LabelledBenign row) 1 : ℕ) := by
  obtain ⟨forest, _, _, _, _, hforest, -, -, -, -, rfl⟩ := ModelObject.lifespan_eq_some_iff.mp h
  obtain ⟨t, ht, rfl⟩ := (sourced_modelDirAfter history).isolationForest forest hforest
  obtain ⟨run, hrun, htrain⟩ := List.mem_filterMap.mp ht
  obtain ⟨parts, hparts, hiso, -⟩ := TrainModel.train_eq_some_iff.mp htrain
  obtain ⟨rows, hrows, hvectors, hlabels⟩ := rows_of_split hparts
  have hdrawn : ∀ row ∈ rows, Drawn run.libraries.rng 6000 900 600 run.libraries.seed row :=
    fun row hrow => drawn_of_mem (hsample run hrun) (hrows row hrow)
  obtain ⟨hzero, hone⟩ := countP_labels hlabels fun row hrow hnot =>
    ((hdrawn row hrow).attack hnot).1
  refine ⟨run, hrun, parts, rows, hparts, hdrawn, hvectors,
    vectors_of_benignRows hvectors hlabels, hiso.symm, ?_⟩
  rw [TrainModel.posWeight, hzero, hone]

end Serving

/-- A generator whose draws are zero. -/
def zeroGenerator : Generator ℚ Unit where
  gamma := fun _ _ _ => pure fun _ => 0
  poisson := fun _ _ => pure fun _ => 0
  normal := fun _ _ _ => pure fun _ => 0
  exponential := fun _ _ => pure fun _ => 0
  binomial := fun _ _ _ => pure fun _ => 0

/-- A forest that finds requests that come fast anomalous. -/
def fastForest : Fitted ℚ := fun v => some (if v.head? = some (.finite 0) then 1 else 0)

/-- A classifier that takes requests that come fast for attacks. -/
def fastClassifier : Fitted ℚ := fun v => some (if v.head? = some (.finite 0) then 0 else 1)

/-- Libraries that keep the rows in order, split each kind of rows in the same proportion, and fit
those models. -/
def sampleLibraries : Libraries ℚ Unit where
  rng := zeroGenerator
  seed := ()
  sample := id
  trainTestSplit := fun _ => some (List.range 4500 ++ List.range' 6000 1125,
    List.range' 4500 1500 ++ List.range' 7125 375)
  fitForest := fun _ => some fastForest
  fitBoost := fun _ _ _ => some fastClassifier
  report := fun _ _ _ => some ()

/-- The sample run trains. -/
theorem sampleLibraries_train : ∃ t, TrainModel.train sampleLibraries = some t := by
  have hpositions : ∀ labels : List ℚ, labels.length = 7500 → ∃ train test,
      sampleLibraries.trainTestSplit labels = some (train, test) ∧
        ∀ i ∈ train ++ test, i < 7500 := by
    refine fun _ _ => ⟨_, _, rfl, fun i hi => ?_⟩
    simp only [List.mem_append, List.mem_range, List.mem_range'_1] at hi
    omega
  obtain ⟨parts, hparts⟩ := exists_split (fun frame => .refl frame) hpositions
  obtain ⟨scores, hscores⟩ : ∃ scores, parts.xTrain.mapM fastForest = some scores :=
    exists_mapM_iff.mpr fun v _ => ⟨_, rfl⟩
  obtain ⟨rows, hrows⟩ : ∃ rows, rows = (TrainModel.dataset sampleLibraries).length := ⟨_, rfl⟩
  exact ⟨⟨fastForest, fastClassifier, scores, rows⟩,
    TrainModel.train_eq_some_iff.mpr ⟨parts, hparts, rfl, hscores, rfl, rfl, hrows⟩⟩

/-- Its scores are zeros and ones. -/
theorem sampleLibraries_scores {t : Training ℚ} (h : TrainModel.train sampleLibraries = some t) :
    t.isoScoresTrain ≠ [] ∧ ∀ x ∈ t.isoScoresTrain, x = 0 ∨ x = 1 := by
  obtain ⟨parts, hparts, hforest, hscores, -⟩ := TrainModel.train_eq_some_iff.mp h
  have hfast : fastForest = t.isolationForest := Option.some.inj hforest
  rw [← hfast] at hscores
  constructor
  · obtain ⟨_, train, test, hsplit, hlength⟩ := length_xTrain hparts
    obtain ⟨rfl, -⟩ := Prod.mk.inj (Option.some.inj hsplit)
    rw [← length_of_mapM hscores, List.length_append, List.length_range] at hlength
    exact List.ne_nil_of_length_pos (by omega)
  · intro x hx
    obtain ⟨v, -, hv⟩ := exists_of_mem_mapM hscores hx
    obtain rfl := Option.some.inj hv
    split
    · exact .inr rfl
    · exact .inl rfl

/-- The texts of finite doubles in Python. -/
def boundRepr (x : ℚ) : String := plainShow (.finite x)

/-- Two runs with the sample libraries: the first one is stopped after its forest. -/
def interrupted (steps : ℕ) : List (TrainerRun ℚ Unit) :=
  [⟨sampleLibraries, 2⟩, ⟨sampleLibraries, steps⟩]

/-- Both runs have the sample libraries. -/
theorem libraries_of_interrupted {steps : ℕ} {run : TrainerRun ℚ Unit}
    (h : run ∈ interrupted steps) : run.libraries = sampleLibraries := by
  simp only [interrupted, List.mem_cons, List.not_mem_nil, or_false] at h
  rcases h with rfl | rfl <;> rfl

/-- The texts of their bounds denote the bounds. -/
theorem boundsDenoted_interrupted (steps : ℕ) :
    ∀ t ∈ trainings (interrupted steps), BoundsDenoted plainDecimal boundRepr t := by
  intro t ht x hx
  obtain ⟨run, hrun, htrain⟩ := List.mem_filterMap.mp ht
  rw [libraries_of_interrupted hrun] at htrain
  have hmem : x ∈ t.isoScoresTrain := by
    rcases hx with hmin | hmax
    · exact (List.min?_eq_some_iff.mp hmin).1
    · exact (List.max?_eq_some_iff.mp hmax).1
  have hvalue : Double.finite x = .finite 0 ∨ Double.finite x = .finite 1 ∨
      Double.finite x = .finite 2 := by
    rcases (sampleLibraries_scores htrain).2 x hmem with rfl | rfl
    · exact .inl rfl
    · exact .inr (.inl rfl)
  obtain ⟨hdecimal, hdenotes⟩ := denoted_plain hvalue
  exact ⟨hdecimal, hdenotes⟩

/-- The second run comes to its end in some number of steps. -/
theorem exists_finished : ∃ t steps, lastWriting (interrupted steps) = some (t, steps) ∧
    Finished boundRepr t steps := by
  obtain ⟨t, htrain⟩ := sampleLibraries_train
  obtain ⟨low, hlow⟩ := Option.isSome_iff_exists.mp
    (List.isSome_min?_of_ne_nil (sampleLibraries_scores htrain).1)
  obtain ⟨high, hhigh⟩ := Option.isSome_iff_exists.mp
    (List.isSome_max?_of_ne_nil (sampleLibraries_scores htrain).1)
  obtain ⟨text, htext⟩ : ∃ text, t.metadataText boundRepr = some text :=
    ⟨_, metadataText_eq_some_iff.mpr ⟨low, high, hlow, hhigh, rfl⟩⟩
  refine ⟨t, text.length + 5, ?_, text, htext, le_rfl⟩
  have hwriting : writing ⟨sampleLibraries, text.length + 5⟩ = some (t, text.length + 5) :=
    writing_eq_some_iff.mpr ⟨Nat.succ_pos _, t, htrain, rfl⟩
  have hreverse : (interrupted (text.length + 5)).reverse =
      [⟨sampleLibraries, text.length + 5⟩, ⟨sampleLibraries, 2⟩] := rfl
  rw [lastWriting, hreverse, List.findSome?_cons_of_isSome (by rw [hwriting]; rfl), hwriting]

/-- After both runs the engine serves with the models of the second one. -/
theorem interrupted_served : ∃ steps object model t,
    ModelObject.lifespan plainDecimal (modelDirAfter boundRepr (interrupted steps)) = some object ∧
      object.model? = some model ∧ lastWriting (interrupted steps) = some (t, steps) ∧
      (∃ t' ∈ trainings (interrupted steps), Calibrated model t'.isoScoresTrain) := by
  obtain ⟨t, steps, hlast, hfinished⟩ := exists_finished
  obtain ⟨hserved, hstarts⟩ := served_models (boundsDenoted_interrupted steps)
  obtain ⟨object, hobject⟩ := hstarts t steps hlast hfinished
  obtain ⟨model, t', steps', hmodel, hlast', -, -, hscale, -⟩ := hserved object hobject
  exact ⟨steps, object, model, t, hobject, hmodel, hlast, hscale⟩

/-- The forest of that engine was fitted to rows that were drawn as benign traffic. -/
theorem interrupted_benign : ∃ steps object, ∃ rows : DataFrame ℚ, ∃ vectors,
    ModelObject.lifespan plainDecimal (modelDirAfter boundRepr (interrupted steps)) = some object ∧
      (∀ row ∈ rows, Drawn zeroGenerator 6000 900 600 () row) ∧
      (rows.filter fun row => LabelledBenign row).mapM vectorOf = some vectors ∧
      object.isolationForest = sampleLibraries.fitForest vectors := by
  obtain ⟨t, steps, hlast, hfinished⟩ := exists_finished
  obtain ⟨object, hobject⟩ :=
    lifespan_of_finished (boundsDenoted_interrupted steps) hlast hfinished
  have hsample : ∀ run ∈ interrupted steps, ∀ frame, (run.libraries.sample frame).Perm frame := by
    intro run hrun frame
    rw [libraries_of_interrupted hrun]
    exact .refl frame
  obtain ⟨run, hrun, parts, rows, -, hdrawn, -, hbenign, hfit, -⟩ :=
    served_forest_benign hsample hobject
  rw [libraries_of_interrupted hrun] at hdrawn hfit
  exact ⟨steps, object, rows, TrainModel.benignRows parts, hobject, hdrawn, hbenign, hfit⟩

end ApiFirewall.Guarantees
