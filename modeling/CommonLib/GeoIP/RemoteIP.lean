import CommonLib.Reasoning.GoMap
import CommonLib.Reasoning.UTF8

/-!
# The address a request comes from

Each proxy adds the address of its client at the end of `X-Forwarded-For`, so the last one is from
the proxy in front of the server and those before it may be forged.  A header may have several
lines, and its value is then that of all of them, one after the other.
-/

namespace CommonLib.GeoIP

open CommonLib.Reasoning CommonLib.Reasoning.UTF8

/-! ## Requests -/

/-- An `http.Header`: the lines under each name. -/
abbrev Header := GoMap GoString (List GoString)

structure Request where
  header : Header
  remoteAddr : GoString

def validHeaderFieldByte (c : UInt8) : Bool :=
  isUpper c || isLower c || (48 ≤ c && c ≤ 57) || (GoString.ofASCII "!#$%&'*+-.^_`|~").contains c

/-- Capitals at the start and after each hyphen. -/
def capitalise (upper : Bool) : GoString → GoString
  | [] => []
  | c :: s =>
      let c := if upper && isLower c then c - 32 else if !upper && isUpper c then c + 32 else c
      c :: capitalise (c == 45) s

def canonicalMIMEHeaderKey (s : GoString) : GoString :=
  if s.all validHeaderFieldByte then capitalise true s else s

/-- `Header.Get`, which returns the first line. -/
def Header.get (h : Header) (key : GoString) : GoString :=
  ((h.lookup (canonicalMIMEHeaderKey key)).getD []).head?.getD []

/-- `net.SplitHostPort`. -/
def splitHostPort (hostport : GoString) : Except String (GoString × GoString) :=
  match hostport.reverse.idxOf? 58 with
  | none => .error "missing port in address"
  | some back =>
      let i := hostport.length - 1 - back
      let port := hostport.drop (i + 1)
      if hostport.head? = some 91 then
        match hostport.idxOf? 93 with
        | none => .error "missing ']' in address"
        | some last =>
            if last + 1 = i then
              if 91 ∈ hostport.drop 1 then .error "unexpected '[' in address"
              else if 93 ∈ hostport.drop (last + 1) then .error "unexpected ']' in address"
              else .ok ((hostport.take last).drop 1, port)
            else if (hostport.drop (last + 1)).head? = some 58 then
              .error "too many colons in address"
            else .error "missing port in address"
      else
        let host := hostport.take i
        if 58 ∈ host then .error "too many colons in address"
        else if 91 ∈ hostport then .error "unexpected '[' in address"
        else if 93 ∈ hostport then .error "unexpected ']' in address"
        else .ok (host, port)

/-! ## Parsers -/

def xForwardedFor : GoString := .ofASCII "X-Forwarded-For"

def xRealIP : GoString := .ofASCII "X-Real-Ip"

/-- What stands between the commas of a line, without its blanks. -/
def elements (line : GoString) : List GoString := GoString.split (line.filter (· ≠ 32)) 44

theorem elements_ne_nil (line : GoString) : elements line ≠ [] := List.splitOn_ne_nil _ _

def lastElement (line : GoString) : GoString := (elements line).getLast (elements_ne_nil line)

abbrev IPParser := Request → GoString

def getForwardedIP : IPParser := fun r ↦ lastElement (r.header.get xForwardedFor)

def getRealIP : IPParser := fun r ↦ r.header.get xRealIP

def getRemoteAddr : IPParser := fun r ↦
  match splitHostPort r.remoteAddr with
  | .error _ => []
  | .ok (addr, _) => addr

/-- Without secrets, every request is believed. -/
def hasValidCDNSecret (r : Request) (cdnSecrets : GoMap GoString GoString) : Bool :=
  cdnSecrets.size = 0 || cdnSecrets.entries.any fun e ↦ r.header.get e.1 = e.2

def getRemoteIPFromCDN (r : Request) (secrets : GoMap GoString GoString) : GoString :=
  if hasValidCDNSecret r secrets then getForwardedIP r else []

def cdnSecretIPParser (secrets : GoMap GoString GoString) : IPParser := fun r ↦
  getRemoteIPFromCDN r secrets

def defaultIPAddressParsers : List IPParser := [getForwardedIP, getRealIP, getRemoteAddr]

structure IPAddressParserOptions where
  parsers : List IPParser

abbrev IPParserOption := IPAddressParserOptions → IPAddressParserOptions

def withIPParser (ipParses : List IPParser) : IPParserOption := fun _ ↦ ⟨ipParses⟩

/-- The parsers that `GetRemoteIP` asks, in their order. -/
def parsersOf (opts : List IPParserOption) : List IPParser :=
  let options := opts.foldl (fun options opt ↦ opt options) ⟨[]⟩
  if options.parsers.isEmpty then defaultIPAddressParsers else options.parsers

def firstAnswer (r : Request) : List IPParser → GoString
  | [] => []
  | parseIP :: parsers =>
      let ip := parseIP r
      if ip ≠ [] then ip else firstAnswer r parsers

def getRemoteIP (r : Request) (opts : List IPParserOption) : GoString :=
  firstAnswer r (parsersOf opts)

/-- The parsers of the package. -/
def packageParsers (secrets : GoMap GoString GoString) : List IPParser :=
  defaultIPAddressParsers ++ [cdnSecretIPParser secrets]

/-! ## The trusted hop -/

def Request.forwardedLines (r : Request) : List GoString :=
  (r.header.lookup xForwardedFor).getD []

/-- The last element of the list that all the lines make up. -/
def Request.trustedHop (r : Request) : GoString :=
  (r.forwardedLines.flatMap elements).getLast?.getD []

/-- The first line ends with the same element as the last one. -/
def Request.FirstLineTrusted (r : Request) : Prop :=
  lastElement (r.forwardedLines.head?.getD []) = lastElement (r.forwardedLines.getLast?.getD [])

theorem canonical_xForwardedFor : canonicalMIMEHeaderKey xForwardedFor = xForwardedFor := by
  decide +kernel

theorem canonical_xRealIP : canonicalMIMEHeaderKey xRealIP ≠ xForwardedFor := by
  decide +kernel

theorem getForwardedIP_eq (r : Request) :
    getForwardedIP r = lastElement (r.forwardedLines.head?.getD []) := by
  rw [getForwardedIP, Header.get, canonical_xForwardedFor]
  rfl

theorem trustedHop_eq (r : Request) :
    r.trustedHop = lastElement (r.forwardedLines.getLast?.getD []) := by
  rw [Request.trustedHop]
  rcases List.eq_nil_or_concat r.forwardedLines with hnil | ⟨earlier, line, hlines⟩
  · rw [hnil]
    rfl
  · rw [hlines, List.concat_eq_append, List.flatMap_append, List.flatMap_singleton,
      List.getLast?_concat, List.getLast?_append_of_ne_nil _ (elements_ne_nil line),
      List.getLast?_eq_some_getLast (elements_ne_nil line)]
    rfl

theorem getForwardedIP_eq_trustedHop_iff (r : Request) :
    getForwardedIP r = r.trustedHop ↔ r.FirstLineTrusted := by
  rw [getForwardedIP_eq, trustedHop_eq, Request.FirstLineTrusted]

theorem firstLineTrusted_of_length_le {r : Request} (h : r.forwardedLines.length ≤ 1) :
    r.FirstLineTrusted := by
  rw [Request.FirstLineTrusted]
  rcases hlines : r.forwardedLines with _ | ⟨line, _ | ⟨line', rest⟩⟩
  · rfl
  · rfl
  · rw [hlines] at h
    simp at h

/-! ## Requests with the same trusted hop -/

/-- The requests differ at most in the elements before the last one. -/
structure SameHop (r₁ r₂ : Request) : Prop where
  remoteAddr : r₁.remoteAddr = r₂.remoteAddr
  header : ∀ name ≠ xForwardedFor, r₁.header.lookup name = r₂.header.lookup name
  hop : r₁.trustedHop = r₂.trustedHop

namespace SameHop

variable {r₁ r₂ : Request} {secrets : GoMap GoString GoString}

theorem get_eq (h : SameHop r₁ r₂) {key : GoString}
    (hkey : canonicalMIMEHeaderKey key ≠ xForwardedFor) :
    r₁.header.get key = r₂.header.get key := by
  rw [Header.get, Header.get, h.header _ hkey]

theorem getRealIP_eq (h : SameHop r₁ r₂) : getRealIP r₁ = getRealIP r₂ :=
  h.get_eq canonical_xRealIP

theorem getRemoteAddr_eq (h : SameHop r₁ r₂) : getRemoteAddr r₁ = getRemoteAddr r₂ := by
  rw [getRemoteAddr, getRemoteAddr, h.remoteAddr]

/-- A secret stands under another name. -/
theorem hasValidCDNSecret_eq (h : SameHop r₁ r₂)
    (hnames : ∀ e ∈ secrets.entries, canonicalMIMEHeaderKey e.1 ≠ xForwardedFor) :
    hasValidCDNSecret r₁ secrets = hasValidCDNSecret r₂ secrets := by
  rw [hasValidCDNSecret, hasValidCDNSecret]
  congr 1
  rw [Bool.eq_iff_iff, List.any_eq_true, List.any_eq_true]
  refine exists_congr fun e ↦ and_congr_right fun he ↦ ?_
  rw [h.get_eq (hnames e he)]

/-- With two answers of the CDN parser, one is the trusted hop and the other is empty. -/
theorem getRemoteIPFromCDN_eq_iff (h : SameHop r₁ r₂) (h₁ : r₁.FirstLineTrusted)
    (h₂ : r₂.FirstLineTrusted) : getRemoteIPFromCDN r₁ secrets = getRemoteIPFromCDN r₂ secrets ↔
      hasValidCDNSecret r₁ secrets = hasValidCDNSecret r₂ secrets ∨ r₁.trustedHop = [] := by
  rw [getRemoteIPFromCDN, getRemoteIPFromCDN, (getForwardedIP_eq_trustedHop_iff r₁).mpr h₁,
    (getForwardedIP_eq_trustedHop_iff r₂).mpr h₂, ← h.hop]
  cases hasValidCDNSecret r₁ secrets <;> cases hasValidCDNSecret r₂ secrets <;>
    simp [@eq_comm GoString []]

end SameHop

theorem firstAnswer_congr {r₁ r₂ : Request} {parsers : List IPParser}
    (h : ∀ p ∈ parsers, p r₁ = p r₂) : firstAnswer r₁ parsers = firstAnswer r₂ parsers := by
  induction parsers with
  | nil => rfl
  | cons p parsers ih =>
      simp only [firstAnswer, h p List.mem_cons_self, ih fun q hq ↦ h q (List.mem_cons_of_mem p hq)]

theorem foldl_withIPParser (groups : List (List IPParser)) (options : IPAddressParserOptions) :
    (groups.map withIPParser).foldl (fun options opt ↦ opt options) options =
      ⟨groups.getLast?.getD options.parsers⟩ := by
  induction groups generalizing options with
  | nil => rfl
  | cons ps groups ih =>
      rw [List.map_cons, List.foldl_cons, ih, List.getLast?_cons]
      rfl

/-- The last option counts. -/
theorem mem_parsersOf {groups : List (List IPParser)} {p : IPParser}
    (h : p ∈ parsersOf (groups.map withIPParser)) :
    p ∈ defaultIPAddressParsers ∨ ∃ ps ∈ groups, p ∈ ps := by
  rw [parsersOf, foldl_withIPParser] at h
  dsimp only at h
  split at h
  next => exact .inl h
  next =>
    cases hlast : groups.getLast? with
    | none =>
        rw [hlast] at h
        cases h
    | some ps =>
        rw [hlast] at h
        exact .inr ⟨ps, List.mem_of_getLast? hlast, h⟩

/-- Two requests with the same trusted hop get it from `GetForwardedIP`, and have the same address
through the CDN parser and `GetRemoteIP` with the parsers of the package, exactly if the first line
of either ends with its hop and a secret that only one of them has does not decide. -/
theorem trusted_hop_wins {r₁ r₂ : Request} (h : SameHop r₁ r₂) (secrets : GoMap GoString GoString) :
    (getForwardedIP r₁ = r₁.trustedHop ∧ getForwardedIP r₂ = r₂.trustedHop ∧
      getRemoteIPFromCDN r₁ secrets = getRemoteIPFromCDN r₂ secrets ∧
      ∀ groups : List (List IPParser), (∀ ps ∈ groups, ∀ p ∈ ps, p ∈ packageParsers secrets) →
        getRemoteIP r₁ (groups.map withIPParser) = getRemoteIP r₂ (groups.map withIPParser)) ↔
    r₁.FirstLineTrusted ∧ r₂.FirstLineTrusted ∧
      (hasValidCDNSecret r₁ secrets = hasValidCDNSecret r₂ secrets ∨ r₁.trustedHop = []) := by
  rw [getForwardedIP_eq_trustedHop_iff, getForwardedIP_eq_trustedHop_iff]
  refine and_congr_right fun h₁ ↦ and_congr_right fun h₂ ↦ ?_
  rw [← h.getRemoteIPFromCDN_eq_iff h₁ h₂]
  refine and_iff_left_of_imp fun hcdn groups hgroups ↦ firstAnswer_congr fun p hp ↦ ?_
  have hforwarded : getForwardedIP r₁ = getForwardedIP r₂ := by
    rw [(getForwardedIP_eq_trustedHop_iff r₁).mpr h₁, (getForwardedIP_eq_trustedHop_iff r₂).mpr h₂,
      h.hop]
  have hmem : p ∈ packageParsers secrets := by
    rcases mem_parsersOf hp with hdefault | ⟨ps, hps, hp⟩
    · exact List.mem_append_left _ hdefault
    · exact hgroups ps hps p hp
  simp only [packageParsers, defaultIPAddressParsers, List.cons_append, List.nil_append,
    List.mem_cons, List.not_mem_nil, or_false] at hmem
  rcases hmem with rfl | rfl | rfl | rfl
  · exact hforwarded
  · exact h.getRealIP_eq
  · exact h.getRemoteAddr_eq
  · exact hcdn

/-- A request with the lines under `X-Forwarded-For` and nothing else. -/
def forwardedBy (lines : List String) : Request where
  header := AList.singleton xForwardedFor (lines.map .ofASCII)
  remoteAddr := .ofASCII "10.0.0.2:6578"

theorem sameHop_forwardedBy {lines₁ lines₂ : List String}
    (h : (forwardedBy lines₁).trustedHop = (forwardedBy lines₂).trustedHop) :
    SameHop (forwardedBy lines₁) (forwardedBy lines₂) := by
  refine ⟨rfl, fun name hname ↦ ?_, h⟩
  simp [forwardedBy, AList.lookup, AList.singleton, List.dlookup_cons_ne, hname]

theorem trusted_hop_wins_oneLine :
    getRemoteIP (forwardedBy ["192.0.2.4, 192.0.2.3, 192.0.2.2"]) [] =
      getRemoteIP (forwardedBy ["192.0.2.2"]) [] := by
  have hsame : SameHop (forwardedBy ["192.0.2.4, 192.0.2.3, 192.0.2.2"])
      (forwardedBy ["192.0.2.2"]) := sameHop_forwardedBy (by decide +kernel)
  have hsecrets := @SameHop.hasValidCDNSecret_eq _ _ ∅ hsame fun e he ↦ absurd he List.not_mem_nil
  exact ((trusted_hop_wins hsame ∅).mpr ⟨firstLineTrusted_of_length_le (by decide +kernel),
    firstLineTrusted_of_length_le (by decide +kernel), .inl hsecrets⟩).2.2.2 []
    fun _ hps ↦ absurd hps List.not_mem_nil

/-- The nearest proxy adds a line of its own, and the client's line is believed. -/
theorem second_line_ignored :
    let r₁ := forwardedBy ["192.0.2.4", "192.0.2.2"]
    let r₂ := forwardedBy ["192.0.2.3", "192.0.2.2"]
    SameHop r₁ r₂ ∧ r₁.trustedHop = .ofASCII "192.0.2.2" ∧
      getForwardedIP r₁ = .ofASCII "192.0.2.4" ∧ getRemoteIP r₁ [] = .ofASCII "192.0.2.4" ∧
      getRemoteIP r₂ [] = .ofASCII "192.0.2.3" ∧
      getRemoteIPFromCDN r₁ ∅ = .ofASCII "192.0.2.4" ∧
      getRemoteIPFromCDN r₂ ∅ = .ofASCII "192.0.2.3" :=
  ⟨sameHop_forwardedBy (by decide +kernel), by decide +kernel⟩

end CommonLib.GeoIP
