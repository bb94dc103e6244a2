import ApiFirewall.Gateway.JavaText

/-!
# Routing by path segments

The gateway routes a request by the segments of its path: each segment loses its matrix parameters
and is then percent-decoded. A path has many spellings with the same segments, and the filter sees
the spelling.
-/

namespace ApiFirewall.Gateway

/-- The value of a hexadecimal digit. -/
def hexValue (c : Char) : Option ℕ :=
  let n := c.toNat
  if 48 ≤ n ∧ n ≤ 57 then some (n - 48)
  else if 65 ≤ n ∧ n ≤ 70 then some (n - 55)
  else if 97 ≤ n ∧ n ≤ 102 then some (n - 87)
  else none

/-- The octet of an escape. -/
def escaped (high low : Char) : Option UInt8 := do
  let h ← hexValue high
  let l ← hexValue low
  return UInt8.ofNat (16 * h + l)

/-- The octets of a text whose escapes stand for one octet each, after as many characters as the
last escape still takes. -/
def percentDecodeAfter : ℕ → List Char → Bytes
  | _, [] => []
  | skip + 1, _ :: rest => percentDecodeAfter skip rest
  | 0, c :: rest =>
    match c, rest with
    | '%', high :: low :: _ =>
      match escaped high low with
      | some b => b :: percentDecodeAfter 2 rest
      | none => String.utf8EncodeChar c ++ percentDecodeAfter 0 rest
    | _, _ => String.utf8EncodeChar c ++ percentDecodeAfter 0 rest

/-- A segment without its matrix parameters. -/
def stripParameters (segment : List Char) : List Char := segment.takeWhile (· ≠ ';')

/-- The segments of a path that routes are matched against. -/
def segments (path : String) : List String :=
  ((path.toList.splitOn '/').map stripParameters).map fun segment =>
    decodeUtf8 (percentDecodeAfter 0 segment)

/-- The services behind the gateway. -/
inductive Route where
  | authService
  | orderService
  | checkoutService
  deriving DecidableEq, Repr

/-- The segments with which the paths of a route begin. -/
def Route.pattern : Route → List String
  | .authService => ["", "api", "auth"]
  | .orderService => ["", "api", "orders"]
  | .checkoutService => ["", "api", "checkout"]

/-- The first route that a path matches. -/
def routeOf (path : String) : Option Route :=
  [.authService, .orderService, .checkoutService].find? fun route =>
    route.pattern.isPrefixOf (segments path)

/-- The login endpoint of the authentication service. -/
def isLoginEndpoint (path : String) : Bool := segments path = ["", "api", "auth", "login"]

example : segments "/api;v=1/%63heckout/42" = segments "/api/checkout/42" := by decide +kernel

/-- Empty parameters at the end change no segment. -/
private theorem strip_append_semicolon (path : List Char) :
    ((path ++ [';']).splitOn '/').map stripParameters =
      (path.splitOn '/').map stripParameters := by
  induction path with
  | nil => rfl
  | cons c rest ih =>
    rw [List.cons_append, List.splitOn_cons_eq_if_modifyHead, List.splitOn_cons_eq_if_modifyHead]
    split
    · rw [List.map_cons, List.map_cons, ih]
    · obtain ⟨head, tail, hsplit⟩ := List.exists_cons_of_ne_nil (List.splitOn_ne_nil '/' rest)
      obtain ⟨head', tail', hsplit'⟩ :=
        List.exists_cons_of_ne_nil (List.splitOn_ne_nil '/' (rest ++ [';']))
      rw [hsplit, hsplit', List.map_cons, List.map_cons, List.cons.injEq] at ih
      rw [hsplit, hsplit', List.modifyHead_cons, List.modifyHead_cons, List.map_cons, List.map_cons,
        ih.2]
      have hhead : head'.takeWhile (· ≠ ';') = head.takeWhile (· ≠ ';') := ih.1
      rw [stripParameters, stripParameters, List.takeWhile_cons, List.takeWhile_cons, hhead]

/-- A path has another spelling with empty parameters at the end. -/
theorem segments_append_semicolon (path : String) : segments (path ++ ";") = segments path := by
  unfold segments
  rw [String.toList_append, show (";" : String).toList = [';'] from rfl, strip_append_semicolon]

end ApiFirewall.Gateway
