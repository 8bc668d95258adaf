import CommonLib.Reasoning.GoString
import CommonLib.Reasoning.Streams
import CommonLib.Reasoning.UTF8

/-!
# Plain requests and their accounting

`handleProxy` sends a copy of the request, with both bodies wrapped in an `accounter` that is to
report what is read through it.
-/

namespace CommonLib.XProxy

open CommonLib.Reasoning

variable {ι ε : Type}

inductive Callback
  | statsReportTx
  | statsReportRx
deriving DecidableEq

/-- A call of a reporter. -/
structure Report (ι : Type) where
  via : Callback
  customInfo : ι
  n : Nat

/-! ## The accounter -/

structure Accounter (ι ε : Type) where
  customInfo : ι
  reporter : Option Callback
  parent : Reader ε

namespace Accounter

/-- `Read`.  The reporter gets the named result `n` before the parent has set it. -/
def read (a : Accounter ι ε) (call len : Nat) : List (Report ι) × (List UInt8 × Option ε) :=
  let n := 0
  let reports := match a.reporter with
    | some via => [⟨via, a.customInfo, n⟩]
    | none => []
  (reports, a.parent.read call len)

/-- The reports of the calls with the given buffers, and the bytes they return. -/
def reads (a : Accounter ι ε) : Nat → List Nat → List (Report ι) × List UInt8
  | _, [] => ([], [])
  | call, len :: lens =>
      let (reports, bytes, _) := a.read call len
      let (reports', bytes') := a.reads (call + 1) lens
      (reports ++ reports', bytes ++ bytes')

end Accounter

/-! ## `handleProxy` -/

/-- The values of each canonical name. -/
abbrev Header := GoString → List GoString

namespace Header

/-- `textproto.validHeaderFieldByte`: the bytes of a token. -/
def validHeaderFieldByte (b : UInt8) : Bool :=
  UTF8.isUpper b || UTF8.isLower b || (48 ≤ b && b ≤ 57) ||
    (GoString.ofASCII "!#$%&'*+-.^_`|~").elem b

/-- A letter at the beginning or after a hyphen is a capital one, the others are small. -/
def capitalize (upper : Bool) : GoString → GoString
  | [] => []
  | b :: rest =>
      let b :=
        if upper && UTF8.isLower b then b - 32
        else if !upper && UTF8.isUpper b then b + 32
        else b
      b :: capitalize (b == 45) rest

/-- `textproto.CanonicalMIMEHeaderKey`: a name that is not a token stays as it is. -/
def canonicalMIMEHeaderKey (name : GoString) : GoString :=
  if name.all validHeaderFieldByte then capitalize true name else name

def del (h : Header) (name : GoString) : Header :=
  Function.update h (canonicalMIMEHeaderKey name) []

def add (h : Header) (name value : GoString) : Header :=
  let name := canonicalMIMEHeaderKey name
  Function.update h name (h name ++ [value])

example : canonicalMIMEHeaderKey (.ofASCII "x-REAL-ip") = .ofASCII "X-Real-Ip" := rfl

end Header

structure Instance where
  markHeaderName : GoString
  -- The callbacks that are not nil.
  callbacks : List Callback

def Instance.callback (i : Instance) (c : Callback) : Option Callback :=
  if c ∈ i.callbacks then some c else none

structure Request (ε : Type) where
  protoMajor : Nat
  method : GoString
  scheme : GoString
  -- `URL.String()`
  url : GoString
  header : Header
  body : Reader ε

structure ProxyRequest (ι ε : Type) where
  method : GoString
  url : GoString
  header : Header
  -- `none` for `http.NoBody`
  body : Option (Accounter ι ε)

/-- The client reads the body. -/
def readBody : Option (Accounter ι ε) → List Nat → List (Report ι) × List UInt8
  | some body, buffers => body.reads 0 buffers
  | none, _ => ([], [])

structure Response (ε : Type) where
  statusCode : Nat
  header : Header
  body : Reader ε

/-- What is outside: `http.NewRequest` accepts the method and the url or not; the client returns a
response or fails, and reads the body of the request in some buffers; so does `io.Copy` with the body
of the response. -/
structure Network (ι ε : Type) where
  newRequest : GoString → GoString → Bool
  randomString : GoString
  client : ProxyRequest ι ε → List Nat × Option (Response ε)
  copy : Response ε → List Nat

inductive WriterCall
  | error (text : String) (code : Nat)
  | addHeaders (header : Header)
  | writeHeader (code : Nat)
  -- `io.Copy` of these bytes
  | copy (bytes : List UInt8)

structure Outcome (ι : Type) where
  writer : List WriterCall
  reports : List (Report ι)
  -- What the two bodies have delivered.
  requestBytes : List UInt8
  responseBytes : List UInt8

namespace Instance

/-- The headers of the request that is sent. -/
def proxyHeader (i : Instance) (header : Header) (randomString : GoString) : Header :=
  let header := ((header.del (.ofASCII "Proxy-Connection")).del
    (.ofASCII "Proxy-Authenticate")).del (.ofASCII "Proxy-Authorization")
  if i.markHeaderName ≠ [] then header.add i.markHeaderName randomString else header

def handleProxy (i : Instance) (net : Network ι ε) (r : Request ε) (isCORS : Bool)
    (customInfo : ι) : Outcome ι :=
  -- The handler goes on after this error.
  let writer := if r.protoMajor = 2 then [.error "Bad request" 505] else []
  if ¬ isCORS ∧ r.scheme = .ofASCII "https" then
    ⟨writer ++ [.error "Proxying HTTPS as plain text is dumb idea" 418], [], [], []⟩
  else if ¬ net.newRequest r.method r.url then
    ⟨writer ++ [.error "Error creating proxy request" 500], [], [], []⟩
  else
    let body : Option (Accounter ι ε) :=
      if isCORS then none else some ⟨customInfo, i.callback .statsReportTx, r.body⟩
    let header := i.proxyHeader r.header net.randomString
    let (buffers, resp) := net.client ⟨r.method, r.url, header, body⟩
    let (reports, sent) := readBody body buffers
    match resp with
    | none => ⟨writer ++ [.error "Error sending proxy request" 500], reports, sent, []⟩
    | some resp =>
        let writer := writer ++ [.addHeaders resp.header, .writeHeader resp.statusCode]
        if isCORS then ⟨writer, reports, sent, []⟩
        else
          -- The response is accounted by the callback of the request.
          let body : Accounter ι ε := ⟨customInfo, i.callback .statsReportTx, resp.body⟩
          let (reports', received) := body.reads 0 (net.copy resp)
          ⟨writer ++ [.copy received], reports ++ reports', sent, received⟩

end Instance

/-! ## What is reported -/

/-- The sum of the counts that went to the callback. -/
def reportedVia (via : Callback) (reports : List (Report ι)) : Nat :=
  ((reports.filter (·.via = via)).map (·.n)).sum

structure Outcome.Accounted (o : Outcome ι) : Prop where
  request : reportedVia .statsReportTx o.reports = o.requestBytes.length
  response : reportedVia .statsReportRx o.reports = o.responseBytes.length

theorem Accounter.reads_bytes (a : Accounter ι ε) (call : Nat) (lens : List Nat) :
    (a.reads call lens).2 = a.parent.delivered call lens := by
  induction lens generalizing call with
  | nil => rfl
  | cons len lens ih => exact congrArg ((a.parent.read call len).1 ++ ·) (ih (call + 1))

theorem Accounter.read_n {a : Accounter ι ε} {call len : Nat} {report : Report ι}
    (h : report ∈ (a.read call len).1) : report.n = 0 := by
  rw [read] at h
  split at h
  · rw [List.mem_singleton.mp h]
  · cases h

theorem Accounter.reads_n {a : Accounter ι ε} {call : Nat} {lens : List Nat} {report : Report ι}
    (h : report ∈ (a.reads call lens).1) : report.n = 0 := by
  induction lens generalizing call with
  | nil => cases h
  | cons len lens ih =>
      have hsplit : report ∈ (a.read call len).1 ++ (a.reads (call + 1) lens).1 := h
      exact (List.mem_append.mp hsplit).elim read_n ih

theorem readBody_n {body : Option (Accounter ι ε)} {buffers : List Nat} {report : Report ι}
    (h : report ∈ (readBody body buffers).1) : report.n = 0 := by
  cases body with
  | none => cases h
  | some body => exact Accounter.reads_n h

theorem Instance.handleProxy_n {i : Instance} {net : Network ι ε} {r : Request ε} {isCORS : Bool}
    {customInfo : ι} {report : Report ι}
    (h : report ∈ (i.handleProxy net r isCORS customInfo).reports) : report.n = 0 := by
  simp only [handleProxy] at h
  split at h
  · cases h
  · split at h
    · cases h
    · split at h
      · exact readBody_n h
      · split at h
        · exact readBody_n h
        · rcases List.mem_append.mp h with h | h
          · exact readBody_n h
          · exact Accounter.reads_n h

theorem sum_n_eq_zero {reports : List (Report ι)} (h : ∀ report ∈ reports, report.n = 0) :
    (reports.map (·.n)).sum = 0 := by
  rw [List.sum_eq_zero_iff]
  intro n hn
  obtain ⟨report, hreport, rfl⟩ := List.mem_map.mp hn
  exact h report hreport

/-- The counts are right exactly where there is nothing to count: a reporter gets zeros only, and the
one of the response gets nothing. -/
theorem accounted_iff_empty :
    (∀ (a : Accounter ι ε) (call : Nat) (lens : List Nat),
      (a.reads call lens).2 = a.parent.delivered call lens ∧
      (((a.reads call lens).1.map (·.n)).sum = (a.parent.delivered call lens).length ↔
        a.parent.delivered call lens = [])) ∧
    ∀ (i : Instance) (net : Network ι ε) (r : Request ε) (customInfo : ι),
      (i.handleProxy net r false customInfo).Accounted ↔
        (i.handleProxy net r false customInfo).requestBytes = [] ∧
          (i.handleProxy net r false customInfo).responseBytes = [] := by
  constructor
  · intro a call lens
    refine ⟨a.reads_bytes call lens, ?_⟩
    rw [sum_n_eq_zero fun _ h ↦ Accounter.reads_n h, eq_comm, List.length_eq_zero_iff]
  · intro i net r customInfo
    have hzero : ∀ via, reportedVia via (i.handleProxy net r false customInfo).reports = 0 :=
      fun via ↦ sum_n_eq_zero fun _ h ↦ Instance.handleProxy_n (List.mem_of_mem_filter h)
    constructor
    · rintro ⟨hrequest, hresponse⟩
      rw [hzero] at hrequest hresponse
      exact ⟨List.length_eq_zero_iff.mp hrequest.symm, List.length_eq_zero_iff.mp hresponse.symm⟩
    · rintro ⟨hrequest, hresponse⟩
      exact ⟨by rw [hzero, hrequest]; rfl, by rw [hzero, hresponse]; rfl⟩

/-- A client that sends one byte and receives one. -/
def oneByteEach : Outcome Unit :=
  let body : Reader Unit := ⟨fun _ len ↦ ([7].take len, some ()), fun _ _ ↦ List.length_take_le ..⟩
  Instance.handleProxy ⟨[], [.statsReportTx, .statsReportRx]⟩
    ⟨fun _ _ ↦ true, [], fun _ ↦ ([512], some ⟨200, fun _ ↦ [], body⟩), fun _ ↦ [512]⟩
    ⟨1, .ofASCII "POST", .ofASCII "http", .ofASCII "http://a/", fun _ ↦ [], body⟩ false ()

/-- Two reads of one byte are reported as nothing, both through `StatsReportTx`. -/
theorem one_byte_unreported :
    oneByteEach.requestBytes = [7] ∧ oneByteEach.responseBytes = [7] ∧
      oneByteEach.reports = [⟨.statsReportTx, (), 0⟩, ⟨.statsReportTx, (), 0⟩] ∧
      ¬ oneByteEach.Accounted := by
  refine ⟨by decide, by decide, by rfl, fun h ↦ ?_⟩
  exact absurd h.request (by decide)

end CommonLib.XProxy
