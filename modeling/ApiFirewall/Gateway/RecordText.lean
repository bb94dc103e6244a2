import ApiFirewall.Gateway.Messages
import ApiFirewall.Wire.LenientText
import ApiFirewall.Wire.MemberOrder

/-!
# The texts of telemetry records

An envelope is a map, and so are the numeric fields of a signal and their ranges; the mapper sets the
members of a map in whatever order the map has. The fields of a signal are set in their declared
order. A record carries the text in UTF-8, with question marks for the surrogates that stand alone in
names, so names that differ only there are one name to whoever reads the record.
-/

namespace ApiFirewall.Gateway

open ApiFirewall.Wire ApiFirewall.Wire.JsonText

variable {K : Type}

/-- The octets of a text; a surrogate that stands alone is encoded as a question mark. -/
def encodeText (text : Text) : Bytes := text.flatMap fun p => String.utf8EncodeChar p.encodable

/-- The same signal, with the entries of its maps in another order. -/
structure RequestSignalDTO.Reordered (signal signal' : RequestSignalDTO K) : Prop where
  numericFields : signal'.numericFields.entries.Perm signal.numericFields.entries
  baselineNumericRanges :
    signal'.baselineNumericRanges.entries.Perm signal.baselineNumericRanges.entries
  others : signal' = { signal with numericFields := signal'.numericFields
                                   baselineNumericRanges := signal'.baselineNumericRanges }

/-- A signal is the same as itself. -/
theorem RequestSignalDTO.Reordered.refl (signal : RequestSignalDTO K) : signal.Reordered signal :=
  ⟨.refl _, .refl _, rfl⟩

/-- The order can be changed back. -/
theorem RequestSignalDTO.Reordered.symm {signal signal' : RequestSignalDTO K}
    (h : signal.Reordered signal') : signal'.Reordered signal := by
  refine ⟨h.numericFields.symm, h.baselineNumericRanges.symm, ?_⟩
  have hothers := h.others
  cases signal
  cases signal'
  simpa [eq_comm] using hothers

/-- The doubles of a signal. -/
def RequestSignalDTO.doubles (signal : RequestSignalDTO K) : List (Double K) :=
  [signal.reqRate10s, signal.reqRate60s, signal.sessionAgeSeconds, signal.geoVelocityKmph,
    signal.responseErrorRate5m] ++
  signal.numericFields.entries.map Prod.snd ++
  signal.baselineNumericRanges.entries.flatMap Prod.snd

/-- The names of the numeric fields of a signal and of their ranges. -/
def RequestSignalDTO.names (signal : RequestSignalDTO K) : List Text :=
  signal.numericFields.entries.map Prod.fst ++ signal.baselineNumericRanges.entries.map Prod.fst

/-- The signal with what a lenient encoder makes of its body and of its names. -/
def RequestSignalDTO.encoded (signal : RequestSignalDTO K) : RequestSignalDTO K :=
  { signal with
    rawBody := signal.rawBody.encodable
    numericFields := signal.numericFields.rename fun name => name.encodable
    baselineNumericRanges := signal.baselineNumericRanges.rename fun name => name.encodable }

/-- A lenient encoder keeps the names of a signal apart. -/
def RequestSignalDTO.NamesApart (signal : RequestSignalDTO K) : Prop :=
  ∀ name ∈ signal.names, ∀ name' ∈ signal.names, name.encodable = name'.encodable → name = name'

instance (signal : RequestSignalDTO K) : Decidable signal.NamesApart :=
  inferInstanceAs (Decidable (∀ name ∈ signal.names, ∀ name' ∈ signal.names,
    name.encodable = name'.encodable → name = name'))

/-- A lenient encoder keeps the body of a signal, and keeps its names apart. -/
structure RequestSignalDTO.Encodable (signal : RequestSignalDTO K) : Prop where
  rawBody : Text.ofString signal.rawBody.encodable = signal.rawBody
  names : signal.NamesApart

/-- Names without surrogates stay apart. -/
theorem RequestSignalDTO.namesApart_of_strings {signal : RequestSignalDTO K}
    (h : ∀ name ∈ signal.names, ∃ s : String, name = s) : signal.NamesApart := by
  intro name hname name' hname' heq
  obtain ⟨s, rfl⟩ := h name hname
  obtain ⟨s', rfl⟩ := h name' hname'
  rw [Text.encodable_ofString, Text.encodable_ofString] at heq
  rw [heq]

/-- Another order leaves the doubles as they are. -/
theorem RequestSignalDTO.Reordered.mem_doubles {signal signal' : RequestSignalDTO K}
    (h : signal.Reordered signal') {x : Double K} : x ∈ signal'.doubles ↔ x ∈ signal.doubles := by
  have hfields := (h.numericFields.map Prod.snd).mem_iff (a := x)
  have hranges := (h.baselineNumericRanges.flatMap_right Prod.snd).mem_iff (a := x)
  have hothers := h.others
  unfold RequestSignalDTO.doubles
  rw [List.mem_append, List.mem_append, List.mem_append, List.mem_append, hfields, hranges, hothers]

/-- Another order leaves the names as they are. -/
theorem RequestSignalDTO.Reordered.mem_names {signal signal' : RequestSignalDTO K}
    (h : signal.Reordered signal') {name : Text} : name ∈ signal'.names ↔ name ∈ signal.names :=
  ((h.numericFields.map Prod.fst).append (h.baselineNumericRanges.map Prod.fst)).mem_iff

/-- The members of an envelope. -/
def Envelope.members (envelope : Envelope K) : List (Text × Json K) :=
  [("request_id", .str envelope.requestId),
   ("client_ip", .str envelope.clientIp),
   ("method", .str envelope.method),
   ("endpoint", .str envelope.endpoint),
   ("timestamp", .str envelope.timestamp),
   ("signal", envelope.signal.toJson)]

/-- An envelope is written as the object of its members. -/
theorem Envelope.toJson_eq (envelope : Envelope K) : envelope.toJson = .obj envelope.members := rfl

/-- The objects that the mapper may set for an envelope: the members of its maps in any order. -/
inductive Envelope.Sets (envelope : Envelope K) : Json K → Prop where
  | of_order {signal : RequestSignalDTO K} {members : List (Text × Json K)}
      (hsignal : envelope.signal.Reordered signal)
      (hmembers : members.Perm { envelope with signal }.members) : envelope.Sets (.obj members)

/-- An order in which the mapper sets the members of maps. -/
structure MapOrder (K : Type) where
  apply : RequestSignalDTO K → RequestSignalDTO K
  reordered : ∀ signal : RequestSignalDTO K, signal.Reordered (apply signal)

/-- The signal in a record of an envelope, as whoever reads the record gets it. -/
def RequestSignalDTO.received (order : MapOrder K) (signal : RequestSignalDTO K) : Json K :=
  (order.apply signal).toJson.encodable

/-- The envelope in its record, as whoever reads the record gets it. -/
def Envelope.received (order : MapOrder K) (envelope : Envelope K) : Json K :=
  { envelope with signal := order.apply envelope.signal }.toJson.encodable

/-- The texts of an envelope are received as they are. -/
theorem Envelope.received_eq (order : MapOrder K) (envelope : Envelope K) :
    envelope.received order = .obj
      [("request_id", .str envelope.requestId),
       ("client_ip", .str envelope.clientIp),
       ("method", .str envelope.method),
       ("endpoint", .str envelope.endpoint),
       ("timestamp", .str envelope.timestamp),
       ("signal", envelope.signal.received order)] := by
  simp only [received, toJson, Json.encodable, Json.mapText, Json.mapTextMembers,
    Text.encodable_ofString, RequestSignalDTO.received]

/-- A record of an envelope: the mapper sets the value of the record as a text, and leaves surrogates to
the serializer, which encodes the text. -/
def KafkaRequestPublisher.IsRecord (showDouble : Double K → String) (envelope : Envelope K)
    (record : Bytes) : Prop :=
  ∃ (style : Style) (value : Json K), style.LeavesSurrogates ∧ envelope.Sets value ∧
    record = encodeText (style.write (fun x => showDouble x) value)

section Parts

variable {P : Double K → Prop} {Q : Text → Prop} (hstrings : ∀ s : String, Q s)

include hstrings

/-- A double as JSON contains no double but itself, if it is finite. -/
theorem throughout_writeDouble {x : Double K} (h : ∀ y, x = .finite y → P x) :
    Throughout P Q (writeDouble x) := by
  cases x with
  | finite y => exact .real (h y rfl)
  | posInf => exact .str (hstrings _)
  | negInf => exact .str (hstrings _)
  | nan => exact .str (hstrings _)

/-- The doubles in a written signal are the finite ones of the signal, and its texts are the names of its
numeric fields, its body, and others that the code fixes. -/
theorem RequestSignalDTO.throughout_toJson {signal : RequestSignalDTO K}
    (h : ∀ x ∈ signal.doubles, ∀ y, x = .finite y → P x) (hbody : Q signal.rawBody)
    (hnames : ∀ name ∈ signal.names, Q name) : Throughout P Q signal.toJson := by
  have hmem : ∀ {x}, x ∈ signal.doubles → Throughout P Q (writeDouble x) :=
    fun hx => throughout_writeDouble hstrings (h _ hx)
  have hfields : Throughout P Q (writeDict writeDouble signal.numericFields) := by
    refine .obj (fun m hm => ?_) fun m hm => ?_
    · obtain ⟨e, he, rfl⟩ := List.mem_map.mp hm
      exact hnames _ (List.mem_append_left _ (List.mem_map_of_mem he))
    · obtain ⟨e, he, rfl⟩ := List.mem_map.mp hm
      apply hmem
      unfold RequestSignalDTO.doubles
      exact List.mem_append_left _ (List.mem_append_right _ (List.mem_map_of_mem he))
  have hranges : Throughout P Q (writeDict (fun range => .arr (range.map writeDouble))
      signal.baselineNumericRanges) := by
    refine .obj (fun m hm => ?_) fun m hm => ?_
    · obtain ⟨e, he, rfl⟩ := List.mem_map.mp hm
      exact hnames _ (List.mem_append_right _ (List.mem_map_of_mem he))
    · obtain ⟨e, he, rfl⟩ := List.mem_map.mp hm
      refine .arr fun v hv => ?_
      obtain ⟨x, hx, rfl⟩ := List.mem_map.mp hv
      apply hmem
      unfold RequestSignalDTO.doubles
      exact List.mem_append_right _ (List.mem_flatMap.mpr ⟨e, he, hx⟩)
  refine .obj (fun m hm => ?_) fun m hm => ?_
  · simp only [List.mem_cons, List.not_mem_nil, or_false] at hm
    rcases hm with rfl | rfl | rfl | rfl | rfl | rfl | rfl | rfl | rfl | rfl | rfl | rfl | rfl | rfl <;>
      exact hstrings _
  simp only [List.mem_cons, List.not_mem_nil, or_false] at hm
  rcases hm with rfl | rfl | rfl | rfl | rfl | rfl | rfl | rfl | rfl | rfl | rfl | rfl | rfl | rfl
  · exact hmem (by simp [RequestSignalDTO.doubles])
  · exact hmem (by simp [RequestSignalDTO.doubles])
  · exact .int _
  · exact .int _
  · exact hmem (by simp [RequestSignalDTO.doubles])
  · exact hmem (by simp [RequestSignalDTO.doubles])
  · exact .int _
  · exact hmem (by simp [RequestSignalDTO.doubles])
  · exact .int _
  · exact .str hbody
  · exact .int _
  · exact .int _
  · exact hfields
  · exact hranges

omit hstrings in
/-- The doubles in an object that the mapper sets are the finite ones of the signal. -/
theorem Envelope.Sets.throughout {envelope : Envelope K} {value : Json K} (h : envelope.Sets value)
    (hdoubles : ∀ x ∈ envelope.signal.doubles, ∀ y, x = .finite y → P x) :
    Throughout P (fun _ => True) value := by
  obtain ⟨hsignal, hmembers⟩ := h
  refine .obj (fun _ _ => trivial) fun m hm => ?_
  have hmem := hmembers.mem_iff.mp hm
  simp only [members, List.mem_cons, List.not_mem_nil, or_false] at hmem
  rcases hmem with rfl | rfl | rfl | rfl | rfl | rfl
  · exact .str trivial
  · exact .str trivial
  · exact .str trivial
  · exact .str trivial
  · exact .str trivial
  · exact RequestSignalDTO.throughout_toJson (fun _ => trivial)
      (fun x hx => hdoubles x (hsignal.mem_doubles.mp hx)) trivial fun _ _ => trivial

end Parts

end ApiFirewall.Gateway
