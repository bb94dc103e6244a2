import ApiFirewall.Guarantees.IndexableClients

/-!
# When a request has a client

The filter takes the client of a request from a header that anybody can send, unless the header is
blank. It splits the header at commas, which yields no piece at all for a header of commas, and trims
the first piece, which can leave nothing. In the first case the filter fails before it has done
anything; in the second all such requests are one client.
-/

namespace ApiFirewall.Guarantees

open ApiFirewall.Gateway ApiFirewall.Gateway.ZeroTrustFilter
open ApiFirewall.Reactive Deployment

/-- A text that is not empty and neither starts nor ends with white space. -/
structure WellDefined (clientIp : String) : Prop where
  nonempty : clientIp ≠ ""
  first : ∀ c, clientIp.toList.head? = some c → isWhitespace c = false
  last : ∀ c, clientIp.toList.getLast? = some c → isWhitespace c = false

/-- A character that trimming keeps. -/
def aboveSpace (c : Char) : Bool := !(c.toNat ≤ 32)

/-- There are characters above U+0020, and the first and the last one are not white space. -/
structure Readable (cs : List Char) : Prop where
  first : ∃ c, cs.find? aboveSpace = some c ∧ isWhitespace c = false
  last : ∃ c, cs.reverse.find? aboveSpace = some c ∧ isWhitespace c = false

/-- The address of the peer, where there is one, is well defined. -/
def PeerWellDefined (exchange : Exchange) : Prop :=
  ∀ address, exchange.remoteAddress = some address → WellDefined address

/-- The forwarded text before the first comma is readable, or nothing is forwarded and the address of
the peer is well defined. -/
def NamesClient (exchange : Exchange) : Prop :=
  match exchange.getFirst "X-Forwarded-For" with
  | some forwarded =>
    if isBlank forwarded then PeerWellDefined exchange
    else Readable (forwarded.toList.takeWhile (· ≠ ','))
  | none => PeerWellDefined exchange

section Trim

variable (cs : List Char)

/-- A trimmed text starts with the first character above U+0020. -/
theorem head?_trim : (trim (.ofList cs)).toList.head? = cs.find? aboveSpace := by
  rw [trim, String.toList_ofList, String.toList_ofList]
  exact head?_dropWhile_rdropWhile _ cs

/-- A trimmed text ends with the last character above U+0020. -/
theorem getLast?_trim : (trim (.ofList cs)).toList.getLast? = cs.reverse.find? aboveSpace := by
  rw [trim, String.toList_ofList, String.toList_ofList]
  exact getLast?_dropWhile_rdropWhile _ cs

/-- Nothing is left of a text without characters above U+0020. -/
theorem trim_eq_empty_iff : trim (.ofList cs) = "" ↔ ∀ c ∈ cs, c.toNat ≤ 32 := by
  rw [← String.toList_eq_nil_iff, ← List.head?_eq_none_iff, head?_trim, List.find?_eq_none]
  simp [aboveSpace]

/-- A trimmed text is well defined exactly if the text is readable. -/
theorem wellDefined_trim_iff : WellDefined (trim (.ofList cs)) ↔ Readable cs := by
  constructor
  · intro h
    have hne : (trim (.ofList cs)).toList ≠ [] := fun hnil =>
      h.nonempty (String.toList_eq_nil_iff.mp hnil)
    have hfirst := List.head?_eq_some_head hne
    have hlast := List.getLast?_eq_some_getLast hne
    exact { first := ⟨_, head?_trim cs ▸ hfirst, h.first _ hfirst⟩
            last := ⟨_, getLast?_trim cs ▸ hlast, h.last _ hlast⟩ }
  · rintro ⟨⟨first, hfirst, hfirst'⟩, last, hlast, hlast'⟩
    rw [← head?_trim] at hfirst
    rw [← getLast?_trim] at hlast
    constructor
    · intro hempty
      rw [hempty] at hfirst
      cases hfirst
    · intro c hc
      obtain rfl := Option.some.inj (hfirst.symm.trans hc)
      exact hfirst'
    · intro c hc
      obtain rfl := Option.some.inj (hlast.symm.trans hc)
      exact hlast'

end Trim

variable {exchange : Exchange} {forwarded : String}

/-- Without a forwarded text the client is the peer, or unknown. -/
theorem resolveClientIp_of_blank
    (h : ∀ forwarded, exchange.getFirst "X-Forwarded-For" = some forwarded →
      isBlank forwarded = true) :
    resolveClientIp exchange = some (exchange.remoteAddress.getD "unknown") := by
  unfold resolveClientIp
  cases hforwarded : exchange.getFirst "X-Forwarded-For" with
  | none => rfl
  | some forwarded => exact if_pos (h forwarded hforwarded)

/-- A header that is not blank yields the first of its pieces, trimmed. -/
theorem resolveClientIp_eq_trim (h : exchange.getFirst "X-Forwarded-For" = some forwarded)
    (hblank : isBlank forwarded = false) :
    resolveClientIp exchange = (split ',' forwarded)[0]?.map trim := by
  unfold resolveClientIp
  simp [h, hblank]

/-- A header that consists of commas yields no client. -/
theorem resolveClientIp_of_commas (h : exchange.getFirst "X-Forwarded-For" = some forwarded)
    (hblank : isBlank forwarded = false) (hcommas : ∀ c ∈ forwarded.toList, c = ',') :
    resolveClientIp exchange = none := by
  have hne : forwarded.toList ≠ [] := by
    intro hnil
    rw [isBlank, hnil] at hblank
    cases hblank
  rw [resolveClientIp_eq_trim h hblank, split_eq_nil_iff.mpr ⟨hne, hcommas⟩]
  rfl

/-- Another header that is not blank yields the text before the first comma, trimmed. -/
theorem resolveClientIp_of_forwarded (h : exchange.getFirst "X-Forwarded-For" = some forwarded)
    (hblank : isBlank forwarded = false) (hcommas : ¬ ∀ c ∈ forwarded.toList, c = ',') :
    resolveClientIp exchange =
      some (trim (.ofList (forwarded.toList.takeWhile (· ≠ ',')))) := by
  rw [resolveClientIp_eq_trim h hblank]
  cases hpieces : split ',' forwarded with
  | nil => exact absurd (split_eq_nil_iff.mp hpieces).2 hcommas
  | cons first pieces =>
    have hfirst : (split ',' forwarded)[0]? = some first := by
      rw [hpieces]
      rfl
    rw [← head_split hfirst]
    rfl

/-- A readable piece is not made of commas and ends before the first one. -/
theorem not_all_commas (h : Readable (forwarded.toList.takeWhile (· ≠ ','))) :
    ¬ ∀ c ∈ forwarded.toList, c = ',' := by
  obtain ⟨c, hc, -⟩ := h.first
  have hmem := List.mem_of_find?_eq_some hc
  intro hall
  have hkept := List.mem_takeWhile_imp hmem
  rw [hall c ((List.takeWhile_prefix _).subset hmem)] at hkept
  simp at hkept

/-- A request has no client exactly if its header consists of commas and is not blank. -/
theorem resolveClientIp_eq_none_iff : resolveClientIp exchange = none ↔
    ∃ forwarded, exchange.getFirst "X-Forwarded-For" = some forwarded ∧
      isBlank forwarded = false ∧ ∀ c ∈ forwarded.toList, c = ',' := by
  constructor
  · intro hnone
    obtain ⟨forwarded, h, hblank⟩ : ∃ forwarded,
        exchange.getFirst "X-Forwarded-For" = some forwarded ∧ isBlank forwarded = false := by
      by_contra hcontra
      rw [resolveClientIp_of_blank] at hnone
      · cases hnone
      · intro forwarded h
        by_contra hblank
        exact hcontra ⟨forwarded, h, Bool.eq_false_iff.mpr hblank⟩
    refine ⟨forwarded, h, hblank, ?_⟩
    by_contra hcommas
    rw [resolveClientIp_of_forwarded h hblank hcommas] at hnone
    cases hnone
  · rintro ⟨forwarded, h, hblank, hcommas⟩
    exact resolveClientIp_of_commas h hblank hcommas

/-- All requests whose header is not blank, is more than commas and has nothing above U+0020 before
the first comma have the empty text as their client. -/
theorem resolveClientIp_eq_empty (h : exchange.getFirst "X-Forwarded-For" = some forwarded)
    (hblank : isBlank forwarded = false) (hcommas : ∃ c ∈ forwarded.toList, c ≠ ',')
    (hfirst : ∀ c ∈ forwarded.toList.takeWhile (· ≠ ','), c.toNat ≤ 32) :
    resolveClientIp exchange = some "" := by
  have hnot : ¬ ∀ c ∈ forwarded.toList, c = ',' := by
    obtain ⟨c, hc, hne⟩ := hcommas
    exact fun hall => hne (hall c hc)
  rw [resolveClientIp_of_forwarded h hblank hnot, (trim_eq_empty_iff _).mpr hfirst]

/-- The address that stands for the peer is well defined exactly if the peer's is, where there is
one. -/
theorem wellDefined_remote_iff :
    WellDefined (exchange.remoteAddress.getD "unknown") ↔ PeerWellDefined exchange := by
  unfold PeerWellDefined
  cases exchange.remoteAddress with
  | none =>
    refine iff_of_true ?_ fun address h => by cases h
    exact ⟨by decide, fun c hc => by cases hc; decide, fun c hc => by cases hc; decide⟩
  | some address =>
    rw [Option.getD_some]
    exact ⟨fun h address' heq => Option.some.inj heq ▸ h, fun h => h address rfl⟩

/-- Without a forwarded text, the client is well defined exactly if the address of the peer is. -/
theorem wellDefined_client_of_blank
    (h : ∀ forwarded, exchange.getFirst "X-Forwarded-For" = some forwarded →
      isBlank forwarded = true) :
    (∃ clientIp, resolveClientIp exchange = some clientIp ∧ WellDefined clientIp) ↔
      PeerWellDefined exchange := by
  rw [resolveClientIp_of_blank h, ← wellDefined_remote_iff]
  constructor
  · rintro ⟨clientIp, heq, hwell⟩
    exact Option.some.inj heq ▸ hwell
  · intro hwell
    exact ⟨_, rfl, hwell⟩

/-- With a forwarded text, the client is well defined exactly if the text before the first comma is
readable. -/
theorem wellDefined_client_of_forwarded (h : exchange.getFirst "X-Forwarded-For" = some forwarded)
    (hblank : isBlank forwarded = false) :
    (∃ clientIp, resolveClientIp exchange = some clientIp ∧ WellDefined clientIp) ↔
      Readable (forwarded.toList.takeWhile (· ≠ ',')) := by
  constructor
  · rintro ⟨clientIp, heq, hwell⟩
    have hcommas : ¬ ∀ c ∈ forwarded.toList, c = ',' := by
      intro hall
      rw [resolveClientIp_of_commas h hblank hall] at heq
      cases heq
    rw [resolveClientIp_of_forwarded h hblank hcommas] at heq
    obtain rfl := Option.some.inj heq
    exact (wellDefined_trim_iff _).mp hwell
  · intro hreadable
    exact ⟨_, resolveClientIp_of_forwarded h hblank (not_all_commas hreadable),
      (wellDefined_trim_iff _).mpr hreadable⟩

/-- A request has a well-defined client exactly if the forwarded text before the first comma has
characters above U+0020 the first and the last of which are not white space, or nothing is
forwarded and the address of the peer is well defined. -/
theorem wellDefined_client_iff (exchange : Exchange) :
    (∃ clientIp, resolveClientIp exchange = some clientIp ∧ WellDefined clientIp) ↔
      NamesClient exchange := by
  unfold NamesClient
  cases h : exchange.getFirst "X-Forwarded-For" with
  | none =>
    apply wellDefined_client_of_blank
    intro forwarded hforwarded
    rw [h] at hforwarded
    cases hforwarded
  | some forwarded =>
    dsimp only
    by_cases hblank : isBlank forwarded = true
    · rw [if_pos hblank]
      apply wellDefined_client_of_blank
      intro forwarded' hforwarded
      obtain rfl := Option.some.inj (h.symm.trans hforwarded)
      exact hblank
    · rw [if_neg hblank]
      exact wellDefined_client_of_forwarded h (Bool.eq_false_iff.mpr hblank)

variable {K : Type} [Field K] [LinearOrder K] [FloorRing K] {d : Deployment K} {w : State K}

/-- In every run, a request without a client performs no call: neither authentication nor an answer
of the filter. -/
theorem events_of_unresolved {P : Action Stimulus (Env K) → Prop} (hrun : d.system.Run P start w)
    {i : ℕ} (hi : w.labels[i]? = some (.request exchange))
    (hnone : resolveClientIp exchange = none) : w.events i = [] := by
  obtain ⟨m, hm⟩ := World.exists_thread hi
  obtain ⟨m', htr, -⟩ := hrun.coherent.trace i _ m hm
  have hbody : filter d.platform d.properties exchange = .done .error := by
    unfold filter
    rw [hnone]
  change Trace (filter d.platform d.properties exchange) (w.events i) m' at htr
  rw [hbody] at htr
  exact htr.of_done.1

/-- A request with the given header. -/
def forwardedRequest (forwarded address : String) : Exchange :=
  { sampleRequest "/api/orders" address with headers := [("X-Forwarded-For", forwarded)] }

/-- A header of one comma has no client. -/
theorem comma_unresolved : ¬ ∀ exchange : Exchange, ∃ clientIp,
    resolveClientIp exchange = some clientIp ∧ WellDefined clientIp := by
  intro h
  obtain ⟨clientIp, hresolved, -⟩ := h (forwardedRequest "," "203.0.113.7")
  have hnone : resolveClientIp (forwardedRequest "," "203.0.113.7") = none := by decide
  rw [hnone] at hresolved
  cases hresolved

example : resolveClientIp (forwardedRequest ", 10.0.0.1" "203.0.113.7") =
    resolveClientIp (forwardedRequest " ,x" "198.51.100.9") := by decide

end ApiFirewall.Guarantees
