import CommonLib.Reasoning.GoMap
import CommonLib.XHTTP.Issuer

/-!
# Certificates of others

`CertWatcher` serves the certificates it finds in a directory.  `sync` builds a new map from the
files; a file that cannot be read is logged, and what `read` has returned for it goes into the map
all the same.
-/

namespace CommonLib.XHTTP

open Reasoning XError

/-- `os.ReadDir` with what `os.ReadFile` returns for each entry. -/
structure DirEntry where
  name : GoString
  isRegular : Bool
  content : Except AnyError (List UInt8)

structure WatcherPackages (KeyPair : Type) extends Packages KeyPair where
  unmarshal : List UInt8 → Except AnyError LECertInfo

variable {KeyPair : Type}

structure CertWatcher (KeyPair : Type) where
  path : GoString
  -- a nil `*tls.Certificate` is `none`
  certs : GoMap GoString (Option (TLSCertificate KeyPair))

namespace CertWatcher

def listed (e : DirEntry) : Bool := e.isRegular && decide (GoString.ofASCII ".json" <:+ e.name)

/-- `list`. -/
def list (dir : Except AnyError (List DirEntry)) : Except AnyError (List DirEntry) :=
  dir.map (·.filter listed)

/-- `read`: the domain, the certificate and the error. -/
def read (P : WatcherPackages KeyPair) (file : DirEntry) :
    GoString × Option (TLSCertificate KeyPair) × Option AnyError :=
  match file.content with
  | .error err => ([], none, some err)
  | .ok bs =>
      match P.unmarshal bs with
      | .error err => ([], none, some err)
      | .ok leCert =>
          match parseX509 P.toPackages leCert.cert leCert.key with
          | .error err => ([], none, some err)
          | .ok tlsCert => (leCert.domain, some tlsCert, none)

/-- The loop of `sync`.  An error of `read` is logged only. -/
def certsOf (P : WatcherPackages KeyPair) (files : List DirEntry) :
    GoMap GoString (Option (TLSCertificate KeyPair)) :=
  GoMap.collect (fun f ↦ (read P f).1) (fun f ↦ (read P f).2.1) files

def sync (P : WatcherPackages KeyPair) (dir : Except AnyError (List DirEntry))
    (w : CertWatcher KeyPair) : CertWatcher KeyPair :=
  if w.path = [] then w
  else
    match list dir with
    | .error _ => w
    | .ok files =>
        { w with certs := certsOf P files }

def notLoaded : AnyError := .other (.ofASCII "certificates is not loaded yet")

def unknownDomain : AnyError := .other (.ofASCII "unknown domain name")

def getCertificate (w : CertWatcher KeyPair) (domain : GoString) :
    Option (TLSCertificate KeyPair) × Option AnyError :=
  match w.certs.lookup domain with
  | some cert => (cert, none)
  | none => if GoMap.size w.certs = 0 then (none, some notLoaded) else (none, some unknownDomain)

end CertWatcher

/-- The issuers, and the watcher if there is one. -/
structure CertMaster (KeyPair : Type) where
  issuers : List (Issuer KeyPair)
  foreign : Option (CertWatcher KeyPair)

/-- `Issuer.GetCertificate`, with `strings.EqualFold`. -/
def Issuer.getCertificate (equalFold : GoString → GoString → Bool) (is : Issuer KeyPair)
    (domain : GoString) : Option (TLSCertificate KeyPair) :=
  if equalFold domain is.domain then is.tlsCert else none

def CertMaster.getCertificate (equalFold : GoString → GoString → Bool) (m : CertMaster KeyPair)
    (serverName : GoString) : Option (TLSCertificate KeyPair) × Option AnyError :=
  match m.issuers.findSome? (·.getCertificate equalFold serverName) with
  | some cert => (some cert, none)
  | none =>
      match m.foreign with
      | some foreign => foreign.getCertificate serverName
      | none => (none, some CertWatcher.unknownDomain)

namespace CertWatcher

variable (P : WatcherPackages KeyPair)

/-- The file is read, with this domain. -/
def Valid (file : DirEntry) (domain : GoString) : Prop :=
  ∃ cert, read P file = (domain, some cert, none)

def Broken (file : DirEntry) : Prop := (read P file).2.2 ≠ none

/-- The file names the domain, whether its certificate can be used or not. -/
def Carries (file : DirEntry) (domain : GoString) : Prop :=
  ∃ bs leCert, file.content = .ok bs ∧ P.unmarshal bs = .ok leCert ∧ leCert.domain = domain

/-- After `sync` on the directory, the watcher has a certificate for exactly the domains of its valid
files and an error for the others, and no broken file makes a difference to another domain. -/
structure Faithful (w : CertWatcher KeyPair) (dir : List DirEntry) : Prop where
  served : ∀ d, (∃ cert, (w.sync P (.ok dir)).getCertificate d = (some cert, none)) ↔
    ∃ f ∈ dir, listed f ∧ Valid P f d
  refused : ∀ d, (¬ ∃ f ∈ dir, listed f ∧ Valid P f d) →
    ∃ err, (w.sync P (.ok dir)).getCertificate d = (none, some err)
  notNil : ∀ d, (w.sync P (.ok dir)).getCertificate d ≠ (none, none)
  apart : ∀ before f after, dir = before ++ f :: after → listed f → Broken P f →
    ∀ d, ¬ Carries P f d → (w.sync P (.ok dir)).getCertificate d =
      (w.sync P (.ok (before ++ after))).getCertificate d

variable {P}

theorem read_cases (f : DirEntry) :
    (∃ err, read P f = ([], none, some err)) ∨ ∃ d cert, read P f = (d, some cert, none) := by
  unfold read
  split
  · exact .inl ⟨_, rfl⟩
  · split
    · exact .inl ⟨_, rfl⟩
    · split
      · exact .inl ⟨_, rfl⟩
      · exact .inr ⟨_, _, rfl⟩

theorem broken_iff {f : DirEntry} : Broken P f ↔ (read P f).1 = [] ∧ (read P f).2.1 = none := by
  rw [Broken]
  rcases read_cases f with ⟨err, hread⟩ | ⟨d, cert, hread⟩
  · rw [hread]
    exact iff_of_true (Option.some_ne_none err) ⟨rfl, rfl⟩
  · rw [hread]
    exact iff_of_false (fun h ↦ h rfl) fun h ↦ Option.some_ne_none cert h.2

theorem valid_of_cert {f : DirEntry} {cert : TLSCertificate KeyPair}
    (h : (read P f).2.1 = some cert) : Valid P f (read P f).1 := by
  rcases read_cases f with ⟨err, hread⟩ | ⟨d, cert', hread⟩
  · rw [hread] at h
    cases h
  · rw [hread]
    exact ⟨cert', hread⟩

theorem domain_of_valid {f : DirEntry} {d : GoString} (h : Valid P f d) : (read P f).1 = d := by
  obtain ⟨cert, hread⟩ := h
  rw [hread]

theorem sync_certs {w : CertWatcher KeyPair} (hpath : w.path ≠ []) (dir : List DirEntry) :
    (w.sync P (.ok dir)).certs = certsOf P (dir.filter listed) := by
  rw [sync, if_neg hpath]
  rfl

/-- A nil certificate stands under the empty domain, where a broken file has left it. -/
theorem broken_of_nil {files : List DirEntry} {d : GoString}
    (h : (certsOf P files).lookup d = some none) :
    d = [] ∧ ∃ before f after, files = before ++ f :: after ∧ Broken P f ∧
      ∀ g ∈ after, ¬ Valid P g [] := by
  obtain ⟨before, f, after, hfiles, hkey, hval, hafter⟩ := GoMap.last_of_lookup_collect h
  rcases read_cases f with ⟨err, hread⟩ | ⟨d', cert, hread⟩
  · have hd : d = [] := by rw [← hkey, hread]
    refine ⟨hd, before, f, after, hfiles, ?_, fun g hg hvalid ↦ hafter g hg ?_⟩
    · rw [Broken, hread]
      exact Option.some_ne_none err
    · rw [domain_of_valid hvalid, hd]
  · rw [hread] at hval
    cases hval

theorem nil_of_broken {before after : List DirEntry} {f : DirEntry} (hbroken : Broken P f)
    (hafter : ∀ g ∈ after, ¬ Valid P g []) :
    (certsOf P (before ++ f :: after)).lookup [] = some none := by
  have hf := (broken_iff.mp hbroken).1
  have hne : (certsOf P (f :: after)).lookup [] ≠ none :=
    fun h ↦ GoMap.lookup_collect_eq_none.mp h f List.mem_cons_self hf
  obtain ⟨v, hv⟩ := Option.ne_none_iff_exists'.mp hne
  -- the last file without a domain comes no earlier than the broken one
  obtain ⟨before', g, after', hsplit, hkey, hval, -⟩ := GoMap.last_of_lookup_collect hv
  have hg : g ∈ f :: after := by
    rw [hsplit]
    exact List.mem_append_right before' List.mem_cons_self
  have hnil : v = none := by
    rcases List.mem_cons.mp hg with rfl | hg
    · rw [← hval, (broken_iff.mp hbroken).2]
    · by_contra hne
      obtain ⟨cert, rfl⟩ := Option.ne_none_iff_exists'.mp hne
      exact hafter g hg (hkey ▸ valid_of_cert hval)
  rw [certsOf, GoMap.lookup_collect_append, ← certsOf, ← certsOf, hv, hnil]
  rfl

section Answers

variable {w w' : CertWatcher KeyPair} {d : GoString}

theorem getCertificate_served {cert : TLSCertificate KeyPair} :
    w.getCertificate d = (some cert, none) ↔ w.certs.lookup d = some (some cert) := by
  rw [getCertificate]
  cases w.certs.lookup d with
  | none =>
      dsimp only
      split <;> exact iff_of_false nofun nofun
  | some c => simp

theorem getCertificate_nil :
    w.getCertificate d = (none, none) ↔ w.certs.lookup d = some none := by
  rw [getCertificate]
  cases w.certs.lookup d with
  | none =>
      dsimp only
      split <;> exact iff_of_false nofun nofun
  | some c => simp

theorem getCertificate_refused (h : w.certs.lookup d = none) :
    ∃ err, w.getCertificate d = (none, some err) := by
  rw [getCertificate, h]
  dsimp only
  split <;> exact ⟨_, rfl⟩

/-- The answer depends on the entry and on whether there is any. -/
theorem getCertificate_congr (h : w.certs.lookup d = w'.certs.lookup d)
    (hsize : GoMap.size w.certs ≠ 0) (hsize' : GoMap.size w'.certs ≠ 0) :
    w.getCertificate d = w'.getCertificate d := by
  rw [getCertificate, getCertificate, h, if_neg hsize, if_neg hsize']

end Answers

theorem size_certsOf_ne_zero {files : List DirEntry} {f : DirEntry} (h : f ∈ files) :
    GoMap.size (certsOf P files) ≠ 0 :=
  fun hsize ↦ GoMap.lookup_collect_eq_none.mp (GoMap.size_eq_zero_iff.mp hsize _) f h rfl

theorem lookup_valid {files : List DirEntry} {d : GoString}
    (hnotNil : (certsOf P files).lookup d ≠ some none) :
    (∃ cert, (certsOf P files).lookup d = some (some cert)) ↔ ∃ f ∈ files, Valid P f d := by
  constructor
  · rintro ⟨cert, hcert⟩
    obtain ⟨before, f, after, hfiles, rfl, hval, -⟩ := GoMap.last_of_lookup_collect hcert
    refine ⟨f, ?_, valid_of_cert hval⟩
    rw [hfiles]
    exact List.mem_append_right before List.mem_cons_self
  · rintro ⟨f, hf, hvalid⟩
    have hne : (certsOf P files).lookup d ≠ none :=
      fun h ↦ GoMap.lookup_collect_eq_none.mp h f hf (domain_of_valid hvalid)
    obtain ⟨v, hv⟩ := Option.ne_none_iff_exists'.mp hne
    cases v with
    | none => exact absurd hv hnotNil
    | some cert => exact ⟨cert, hv⟩

/-- A broken file that is followed by a valid one without a domain makes no difference. -/
theorem getCertificate_skip {w : CertWatcher KeyPair} (hpath : w.path ≠ [])
    {before after : List DirEntry} {f g : DirEntry} (hlisted : listed f) (hbroken : Broken P f)
    (hg : g ∈ after.filter listed) (hvalid : Valid P g []) (d : GoString) :
    (w.sync P (.ok (before ++ f :: after))).getCertificate d =
      (w.sync P (.ok (before ++ after))).getCertificate d := by
  have hfiles : (before ++ f :: after).filter listed =
      before.filter listed ++ f :: after.filter listed := by
    rw [List.filter_append, List.filter_cons_of_pos hlisted]
  apply getCertificate_congr
  · rw [sync_certs hpath, sync_certs hpath, hfiles, List.filter_append]
    refine GoMap.lookup_collect_skip ?_
    rw [(broken_iff.mp hbroken).1]
    by_cases hd : d = []
    · exact .inr ⟨g, hg, (domain_of_valid hvalid).trans hd.symm⟩
    · exact .inl (Ne.symm hd)
  · rw [sync_certs hpath, hfiles]
    exact size_certsOf_ne_zero (List.mem_append_right _ List.mem_cons_self)
  · rw [sync_certs hpath, List.filter_append]
    exact size_certsOf_ne_zero (List.mem_append_right _ hg)

/-- The watcher answers faithfully exactly if every broken file is followed by a valid file without
a domain. -/
theorem faithful_iff {w : CertWatcher KeyPair} (hpath : w.path ≠ []) (dir : List DirEntry) :
    Faithful P w dir ↔ ∀ before f after, dir.filter listed = before ++ f :: after → Broken P f →
      ∃ g ∈ after, Valid P g [] := by
  have hmem : ∀ d, (∃ f ∈ dir.filter listed, Valid P f d) ↔ ∃ f ∈ dir, listed f ∧ Valid P f d := by
    simp only [List.mem_filter, and_assoc, implies_true]
  constructor
  · intro h before f after hfiles hbroken
    by_contra! hafter
    refine h.notNil [] (getCertificate_nil.mpr ?_)
    rw [sync_certs hpath, hfiles, nil_of_broken hbroken hafter]
  · intro hhealed
    have hnotNil : ∀ d, (w.sync P (.ok dir)).certs.lookup d ≠ some none := by
      intro d h
      rw [sync_certs hpath] at h
      obtain ⟨-, before, f, after, hfiles, hbroken, hafter⟩ := broken_of_nil h
      obtain ⟨g, hg, hvalid⟩ := hhealed before f after hfiles hbroken
      exact hafter g hg hvalid
    have hserved : ∀ d, (∃ cert, (w.sync P (.ok dir)).certs.lookup d = some (some cert)) ↔
        ∃ f ∈ dir, listed f ∧ Valid P f d := by
      intro d
      have hnil := hnotNil d
      rw [sync_certs hpath] at hnil ⊢
      rw [lookup_valid hnil, hmem]
    refine ⟨fun d ↦ ?_, fun d hnone ↦ ?_, fun d h ↦ hnotNil d (getCertificate_nil.mp h), ?_⟩
    · simp only [getCertificate_served]
      exact hserved d
    · apply getCertificate_refused
      cases hlookup : (w.sync P (.ok dir)).certs.lookup d with
      | none => rfl
      | some v =>
          cases v with
          | none => exact absurd hlookup (hnotNil d)
          | some cert => exact absurd ((hserved d).mp ⟨cert, hlookup⟩) hnone
    · rintro before f after rfl hlisted hbroken d -
      obtain ⟨g, hg, hvalid⟩ := hhealed (before.filter listed) f (after.filter listed)
        (by rw [List.filter_append, List.filter_cons_of_pos hlisted]) hbroken
      exact getCertificate_skip hpath hlisted hbroken hg hvalid d

/-- A file is a byte for the certificate and the domain after it; an empty one cannot be decoded. -/
def oneByte : WatcherPackages (List UInt8) where
  x509KeyPair cert _ := .ok cert
  leafDER := id
  parseCertificate _ := .ok 0
  marshal c := c.cert ++ c.domain
  unmarshal
    | [] => .error (.other (.ofASCII "unexpected end of JSON input"))
    | c :: domain => .ok ⟨domain, [c], [], []⟩

def watcher : CertWatcher (List UInt8) := ⟨.ofASCII "certs", ∅⟩

/-- One valid file. -/
theorem faithful_oneFile :
    Faithful oneByte watcher [⟨.ofASCII "a.json", true, .ok [1, 97]⟩] := by
  refine (faithful_iff (by decide) _).mpr fun before f after hfiles hbroken ↦ ?_
  have hmem : f ∈ [(⟨.ofASCII "a.json", true, .ok [1, 97]⟩ : DirEntry)] :=
    List.mem_of_mem_filter (hfiles ▸ List.mem_append_right before List.mem_cons_self)
  rw [List.mem_singleton.mp hmem] at hbroken
  exact absurd rfl hbroken

/-- One empty file: a client that sends no server name gets neither a certificate nor an error. -/
theorem broken_file_nil :
    (watcher.sync oneByte (.ok [⟨.ofASCII "a.json", true, .ok []⟩])).getCertificate [] =
      (none, none) ∧
    ¬ Faithful oneByte watcher [⟨.ofASCII "a.json", true, .ok []⟩] := by
  have hnil : (watcher.sync oneByte (.ok [⟨.ofASCII "a.json", true, .ok []⟩])).getCertificate [] =
      (none, none) := by decide
  exact ⟨hnil, fun h ↦ h.notNil [] hnil⟩

end CertWatcher

/-- `CertMaster` hands on what the watcher answers where no issuer has a certificate. -/
theorem CertMaster.getCertificate_nil_iff {equalFold : GoString → GoString → Bool}
    {m : CertMaster KeyPair} {serverName : GoString} :
    m.getCertificate equalFold serverName = (none, none) ↔
      (∀ is ∈ m.issuers, is.getCertificate equalFold serverName = none) ∧
        ∃ foreign, m.foreign = some foreign ∧ foreign.getCertificate serverName = (none, none) := by
  rw [getCertificate, ← List.findSome?_eq_none_iff]
  cases m.issuers.findSome? (·.getCertificate equalFold serverName) with
  | some cert => simp
  | none =>
      cases m.foreign with
      | none => simp
      | some foreign => simp

end CommonLib.XHTTP
