import ApiFirewall.Engine.FieldOrder
import ApiFirewall.Gateway.RecordText
import ApiFirewall.Guarantees.SignalFormat

/-!
# Signals as they are delivered

The consumer reads a signal from a record. Its numeric fields have the order of the mapper's maps there,
and question marks stand for the surrogates in their names. The engine makes of it what it makes of the
signal itself, as long as different names stay different.
-/

namespace ApiFirewall.Guarantees

open ApiFirewall.Wire ApiFirewall.Gateway ApiFirewall.Gateway.ZeroTrustFilter ApiFirewall.Engine
open ApiFirewall.Engine.KafkaConsumer ApiFirewall.Reactive Deployment

variable {K : Type}

/-- A written double has no surrogates. -/
@[simp] theorem encodable_writeDouble (x : Double K) : (writeDouble x).encodable = writeDouble x := by
  cases x with
  | finite x => rfl
  | posInf => rfl
  | negInf => rfl
  | nan => rfl

/-- Neither has a written range. -/
theorem encodable_writeRange (range : List (Double K)) :
    (Json.arr (range.map writeDouble)).encodable = .arr (range.map writeDouble) := by
  rw [Json.encodable_arr, List.map_map]
  exact congrArg Json.arr (List.map_congr_left fun x _ => encodable_writeDouble x)

/-- A leniently encoded dictionary is read with its encoded names; of those that have become the same, the
last one counts. -/
theorem readDict_encodable {α : Type} {read : Json K → Option α} {write : α → Json K}
    (h : ∀ a, read (write a).encodable = some a) (d : Dict α) :
    readDict read (writeDict write d).encodable = some (d.rename fun name => name.encodable) := by
  have hmembers : (writeDict write d).encodable =
      .obj ((d.entries.map fun e => ((e.1.encodable : Text), e.2)).map
        fun m => (m.1, (write m.2).encodable)) := by
    rw [writeDict, Json.encodable_obj, Dict.map_entries, List.map_map, List.map_map]
    rfl
  rw [hmembers, readDict, Dict.ofMembers_map fun a => (write a).encodable]
  exact Dict.traverse_map (d.rename fun name => name.encodable) fun e _ => h e.2

variable [Field K] [LinearOrder K]

/-- The bounds do not look at the body and at the numeric fields. -/
theorem inBounds_congr (signal : RequestSignalDTO K) (rawBody : Text)
    (numericFields : Dict (Double K)) (baselineNumericRanges : Dict (List (Double K))) :
    InBounds { signal with rawBody, numericFields, baselineNumericRanges } ↔ InBounds signal := by
  constructor
  · exact fun h => ⟨h.reqRate10s, h.reqRate60s, h.distinctEndpoints60s, h.failedAuthStreak,
      h.sessionAgeSeconds, h.geoVelocityKmph, h.knownBadUaFlag, h.responseErrorRate5m, h.offHoursFlag⟩
  · exact fun h => ⟨h.reqRate10s, h.reqRate60s, h.distinctEndpoints60s, h.failedAuthStreak,
      h.sessionAgeSeconds, h.geoVelocityKmph, h.knownBadUaFlag, h.responseErrorRate5m, h.offHoursFlag⟩

/-- Signals with the same fields are the same. -/
theorem fieldsOf_injective : Function.Injective (fieldsOf (K := K)) := by
  intro s s' h
  cases s
  cases s'
  simp only [fieldsOf, RequestSignalDTO.mk.injEq] at h
  simpa only [RequestSignal.mk.injEq, Subtype.ext_iff] using h

/-- Validated signals are reordered if what was written is. -/
theorem reordered_of_fieldsOf {s s' : RequestSignal K} (h : (fieldsOf s).Reordered (fieldsOf s')) :
    s.Reordered s' where
  numericFields := h.numericFields
  baselineNumericRanges := h.baselineNumericRanges
  others := fieldsOf_injective h.others

variable [FloorRing K]

/-- Validation reads a leniently encoded signal as the signal with its encoded names. -/
theorem validate_encodable (texts : NumberTexts K) (signal : RequestSignalDTO K) :
    RequestSignal.validate texts signal.toJson.encodable =
      RequestSignal.validate texts signal.encoded.toJson := by
  have hfields : readDict (readFloat texts) (writeDict writeDouble signal.numericFields).encodable =
      some (signal.numericFields.rename fun name => name.encodable) :=
    readDict_encodable (fun x => by rw [encodable_writeDouble, readFloat_writeDouble]) _
  have hranges : readDict (readList (readFloat texts))
      (writeDict (fun range => .arr (range.map writeDouble)) signal.baselineNumericRanges).encodable =
      some (signal.baselineNumericRanges.rename fun name => name.encodable) :=
    readDict_encodable (fun range => by rw [encodable_writeRange, readList_writeDouble]) _
  have hencodable : signal.toJson.encodable = .obj
      [("req_rate_10s", writeDouble signal.reqRate10s),
       ("req_rate_60s", writeDouble signal.reqRate60s),
       ("distinct_endpoints_60s", .int signal.distinctEndpoints60s),
       ("failed_auth_streak", .int signal.failedAuthStreak),
       ("session_age_seconds", writeDouble signal.sessionAgeSeconds),
       ("geo_velocity_kmph", writeDouble signal.geoVelocityKmph),
       ("known_bad_ua_flag", .int signal.knownBadUaFlag),
       ("response_error_rate_5m", writeDouble signal.responseErrorRate5m),
       ("off_hours_flag", .int signal.offHoursFlag),
       ("raw_body", .str signal.rawBody.encodable),
       ("param_count", .int signal.paramCount),
       ("baseline_param_count", .int signal.baselineParamCount),
       ("numeric_fields", (writeDict writeDouble signal.numericFields).encodable),
       ("baseline_numeric_ranges",
         (writeDict (fun range => .arr (range.map writeDouble)) signal.baselineNumericRanges).encodable)] := by
    simp only [RequestSignalDTO.toJson, Json.encodable_obj, List.map_cons, List.map_nil,
      Text.encodable_ofString, encodable_writeDouble, Json.encodable_int, Json.encodable_str]
  rw [hencodable]
  simp only [RequestSignal.validate, RequestSignalDTO.toJson, required, Engine.optional, member,
    List.reverse_cons, List.reverse_nil, List.nil_append, List.cons_append, List.find?_cons,
    Text.ofString_inj, String.reduceEq, decide_true, decide_false, Option.map_some, Option.bind_some,
    hfields, hranges, readDict_writeDict (readFloat_writeDouble texts),
    readDict_writeDict (readList_writeDouble texts), RequestSignalDTO.encoded]

/-- A delivered signal is validated exactly if the signal keeps the bounds, whatever its names are. -/
theorem isSome_validate_received (texts : NumberTexts K) (order : MapOrder K)
    (signal : RequestSignalDTO K) :
    (RequestSignal.validate texts (signal.received order)).isSome = true ↔ InBounds signal := by
  have hbounds : InBounds (order.apply signal).encoded ↔ InBounds signal := by
    rw [RequestSignalDTO.encoded, inBounds_congr, (order.reordered signal).others, inBounds_congr]
  rw [RequestSignalDTO.received, validate_encodable, ← hbounds, Option.isSome_iff_exists]
  constructor
  · rintro ⟨s, hs⟩
    exact fieldsOf_of_validate texts hs ▸ inBounds_fieldsOf s
  · intro hkept
    obtain ⟨s, hs, -⟩ := validate_toJson texts hkept
    exact ⟨s, hs⟩

variable (config : EngineConfig K)

/-- Signals score the same if both or neither keep the bounds, and their features are the same. -/
theorem scoreSignal_congr {signal signal' : RequestSignalDTO K}
    (hbounds : InBounds signal' ↔ InBounds signal)
    (hfeatures : ∀ s s' : RequestSignal K, fieldsOf s = signal → fieldsOf s' = signal' →
      extractFeatures config.log2 s' = extractFeatures config.log2 s) :
    scoreSignal config signal'.toJson = scoreSignal config signal.toJson := by
  have hrejected : ∀ {signal : RequestSignalDTO K}, ¬ InBounds signal →
      RequestSignal.validate config.texts signal.toJson = none := by
    intro signal hbounds
    cases hs : RequestSignal.validate config.texts signal.toJson with
    | none => rfl
    | some s => exact absurd (fieldsOf_of_validate config.texts hs ▸ inBounds_fieldsOf s) hbounds
  unfold scoreSignal
  by_cases hkept : InBounds signal
  · obtain ⟨s, hs, hfields⟩ := validate_toJson config.texts hkept
    obtain ⟨s', hs', hfields'⟩ := validate_toJson config.texts (hbounds.mpr hkept)
    simp only [hs, hs', Option.bind_eq_bind, Option.bind_some, hfeatures s s' hfields hfields']
  · rw [hrejected hkept, hrejected fun hkept' => hkept (hbounds.mp hkept')]

/-- A signal scores the same in any order. -/
theorem scoreSignal_of_reordered {signal signal' : RequestSignalDTO K}
    (h : signal.Reordered signal') :
    scoreSignal config signal'.toJson = scoreSignal config signal.toJson := by
  refine scoreSignal_congr config ?_ fun s s' hfields hfields' => ?_
  · rw [h.others]
    exact inBounds_congr signal _ _ _
  · rw [← hfields, ← hfields'] at h
    exact extractFeatures_of_reordered config.log2 (reordered_of_fieldsOf h)

/-- A signal with other names scores the same, if different names have stayed different. -/
theorem scoreSignal_encoded {signal : RequestSignalDTO K} (h : signal.Encodable) :
    scoreSignal config signal.encoded.toJson = scoreSignal config signal.toJson := by
  refine scoreSignal_congr config (inBounds_congr signal _ _ _) fun s s' hfields hfields' => ?_
  have hrenamed : s.Renamed (fun name => name.encodable) s' := by
    subst hfields
    have hnames : s'.numericFields = s.numericFields.rename fun name => name.encodable :=
      congrArg RequestSignalDTO.numericFields hfields'
    have hranges : s'.baselineNumericRanges =
        s.baselineNumericRanges.rename fun name => name.encodable :=
      congrArg RequestSignalDTO.baselineNumericRanges hfields'
    have hinjective : ∀ name ∈ s.names, ∀ name' ∈ s.names,
        Text.ofString name.encodable = Text.ofString name'.encodable → name = name' :=
      fun name hname name' hname' heq => h.names name hname name' hname' (Text.ofString_inj.mp heq)
    refine ⟨?_, ?_, hinjective, fieldsOf_injective ?_⟩
    · rw [hnames]
      exact Dict.rename_entries fun name hname name' hname' =>
        hinjective name (List.mem_append_left _ hname) name' (List.mem_append_left _ hname')
    · rw [hranges]
      exact Dict.rename_entries fun name hname name' hname' =>
        hinjective name (List.mem_append_right _ hname) name' (List.mem_append_right _ hname')
    · rw [hfields', RequestSignalDTO.encoded, h.rawBody, hnames, hranges]
      rfl
  exact extractFeatures_of_renamed config.log2 hrenamed

omit [Field K] [LinearOrder K] [FloorRing K] in
/-- What can be encoded can be encoded in any order. -/
theorem encodable_of_reordered {signal signal' : RequestSignalDTO K} (hencodable : signal.Encodable)
    (h : signal.Reordered signal') : signal'.Encodable := by
  refine ⟨?_, fun name hname name' hname' => ?_⟩
  · rw [h.others]
    exact hencodable.rawBody
  · exact hencodable.names name (h.mem_names.mp hname) name' (h.mem_names.mp hname')

/-- A signal scores as it is received, if its names stay apart. -/
theorem scoreSignal_received (order : MapOrder K) {signal : RequestSignalDTO K}
    (h : signal.Encodable) :
    scoreSignal config (signal.received order) = scoreSignal config signal.toJson := by
  have hreordered := order.reordered signal
  calc scoreSignal config (signal.received order)
      = scoreSignal config (order.apply signal).encoded.toJson := by
        rw [RequestSignalDTO.received, scoreSignal, validate_encodable, scoreSignal]
    _ = scoreSignal config (order.apply signal).toJson :=
        scoreSignal_encoded config (encodable_of_reordered h hreordered)
    _ = scoreSignal config signal.toJson := scoreSignal_of_reordered config hreordered

/-- The body of a signal that a run carries is decoded text. -/
theorem rawBody_of_carried {d : Deployment K} {P : Action Stimulus (Env K) → Prop} {w : State K}
    (hrun : d.system.Run P start w) {e : Entry (Op K) Res} (he : e ∈ w.log)
    {signal : RequestSignalDTO K} (hsignal : carriedSignal e.event.op = some signal) :
    ∃ bodyString : String, signal.rawBody = bodyString := by
  obtain ⟨l, hl, hcall⟩ := labelCall_of_log hrun he
  cases l with
  | request exchange =>
    obtain ⟨m', hprogress⟩ := progress hrun hl
    have hmem : e.event ∈ w.events e.thread := mem_eventsOf.mpr ⟨e, he, rfl, rfl⟩
    obtain ⟨_, _, _, _, _, _, _, _, bodyString, -, -, -, -, -, rfl⟩ :=
      signal_of_carried hprogress hmem hsignal
    exact ⟨bodyString, rfl⟩
  | message source payload =>
    exfalso
    generalize e.event.op = op at hcall hsignal
    cases hcall <;> cases hsignal

/-- So the signal can be encoded if its names stay apart. -/
theorem encodable_of_carried {d : Deployment K} {P : Action Stimulus (Env K) → Prop} {w : State K}
    (hrun : d.system.Run P start w) {e : Entry (Op K) Res} (he : e ∈ w.log)
    {signal : RequestSignalDTO K} (hsignal : carriedSignal e.event.op = some signal)
    (hnames : signal.NamesApart) : signal.Encodable := by
  obtain ⟨bodyString, hbody⟩ := rawBody_of_carried hrun he hsignal
  refine ⟨?_, hnames⟩
  rw [hbody, Text.encodable_ofString]

end ApiFirewall.Guarantees
