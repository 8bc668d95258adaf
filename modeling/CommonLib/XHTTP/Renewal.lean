import CommonLib.XHTTP.Issuer

/-!
# What the worker leaves on disk

A certificate that is obtained and then not saved is where the tasks go wrong: `issueAndSave` obtains
another one, and `renewOnce` finds a fresh certificate in place and is content with it.
-/

namespace CommonLib.XHTTP

open XError

variable {KeyPair : Type} {P : Packages KeyPair} {a : Attempt} {is : Issuer KeyPair}

/-- The file holds the certificate that is in use. -/
def Issuer.Synced (P : Packages KeyPair) (is : Issuer KeyPair) : Prop :=
  ∃ leCert tlsCert, is.leCert = some leCert ∧ is.tlsCert = some tlsCert ∧
    parseX509 P leCert.cert leCert.key = .ok tlsCert ∧ is.file = some (P.marshal leCert)

/-- Let's Encrypt has handed out one certificate at most, and if it has, it is in use and saved. -/
structure Run.Saved (P : Packages KeyPair) (r : Run KeyPair) : Prop where
  once : r.obtained.length ≤ 1
  synced : r.obtained ≠ [] → r.issuer.Synced P

/-- The attempt comes to ask Let's Encrypt for a certificate. -/
def Task.Asks (a : Attempt) (is : Issuer KeyPair) : Task → Prop
  | .issueAndSaveCertificate => (getLEClient a is).1 = none
  | .renewOnce =>
      is.leCert.isSome ∧
        (∃ tlsCert, is.tlsCert = some tlsCert ∧
          ¬ timeUntil a.now tlsCert.notAfter > 30 * 24 * hour) ∧
        (getLEClient a is).1 = none

/-- If the attempt asks and is handed a certificate, it can be parsed and the file can be
written. -/
def Attempt.Completes (P : Packages KeyPair) (task : Task) (is : Issuer KeyPair) (a : Attempt) :
    Prop :=
  task.Asks a is → ∀ res, a.answer = .ok res →
    (∃ tlsCert, parseX509 P res.certificate res.privateKey = .ok tlsCert) ∧ a.writeFile = .done

/-- The attempts that are made complete.  After a failed one the next is made, unless the context
has ended in the pause. -/
def EachCompletes (P : Packages KeyPair) (task : Task) : List Attempt → Issuer KeyPair → Prop
  | [], _ => True
  | a :: rest, is =>
      a.Completes P task is ∧
        ((task.run P a is).1 ≠ none → a.cancelled = false →
          EachCompletes P task rest (task.run P a is).2.1)

/-- Either no certificate was handed out, or one was and the task has returned nil. -/
def TaskResult.Completed (P : Packages KeyPair) (result : TaskResult KeyPair) : Prop :=
  result.2.2 = [] ∨ result.1 = none ∧ result.2.2.length = 1 ∧ result.2.1.Synced P

theorem install_synced {res : Resource} {tlsCert : TLSCertificate KeyPair}
    (hparse : parseX509 P res.certificate res.privateKey = .ok tlsCert)
    (hwrite : a.writeFile = .done) (is : Issuer KeyPair) (domain : Reasoning.GoString) :
    (install P a is domain res).1 = none ∧ (install P a is domain res).2.Synced P := by
  have hinstall : install P a is domain res = (none, { is with
      leCert := some ⟨domain, res.certificate, res.privateKey, res.certURL⟩
      tlsCert := some tlsCert
      file := some (P.marshal ⟨domain, res.certificate, res.privateKey, res.certURL⟩) }) := by
    simp only [install, hparse, writeCert, hwrite]
    rfl
  rw [hinstall]
  exact ⟨rfl, _, _, rfl, rfl, hparse, rfl⟩

theorem install_completed {res : Resource}
    (h : (∃ tlsCert, parseX509 P res.certificate res.privateKey = .ok tlsCert) ∧
      a.writeFile = .done) (is : Issuer KeyPair) (domain : Reasoning.GoString) :
    TaskResult.Completed P
      ((install P a is domain res).1, (install P a is domain res).2, [res]) := by
  obtain ⟨⟨tlsCert, hparse⟩, hwrite⟩ := h
  obtain ⟨herr, hsynced⟩ := install_synced hparse hwrite is domain
  exact .inr ⟨herr, rfl, hsynced⟩

theorem issue_completed (h : a.Completes P .issueAndSaveCertificate is) :
    TaskResult.Completed P (issueAndSaveCertificate P a is) := by
  rw [issueAndSaveCertificate]
  split
  · exact .inl rfl
  next hclient =>
    have hasks : Task.Asks a is .issueAndSaveCertificate := congrArg Prod.fst hclient
    split
    · exact .inl rfl
    next hanswer => exact install_completed (h hasks _ hanswer) ..

theorem renew_completed (h : a.Completes P .renewOnce is) :
    TaskResult.Completed P (renewOnce P a is) := by
  rw [renewOnce]
  split
  next hle htls =>
    split_ifs with hdue
    · exact .inl rfl
    · split
      · exact .inl rfl
      next hclient =>
        have hasks : Task.Asks a is .renewOnce :=
          ⟨Option.isSome_of_eq_some hle, ⟨_, htls, hdue⟩, congrArg Prod.fst hclient⟩
        split
        · exact .inl rfl
        next hanswer => exact install_completed (h hasks _ hanswer) ..
  · exact .inl rfl

theorem task_completed {task : Task} (h : a.Completes P task is) :
    TaskResult.Completed P (task.run P a is) := by
  cases task with
  | issueAndSaveCertificate => exact issue_completed h
  | renewOnce => exact renew_completed h

theorem workerTaskLoop_saved (task : Task) (interval : Time) (attempts : List Attempt)
    (is : Issuer KeyPair) (h : EachCompletes P task attempts is) :
    (workerTaskLoop P task interval attempts is).Saved P := by
  induction attempts generalizing interval is with
  | nil => exact ⟨Nat.zero_le 1, fun hne ↦ absurd rfl hne⟩
  | cons a rest ih =>
      obtain ⟨hfirst, hnext⟩ := h
      have hcompleted := task_completed hfirst
      rcases hresult : task.run P a is with ⟨_ | err, is', got⟩
      · rw [workerTaskLoop_finished hresult]
        rw [hresult] at hcompleted
        obtain rfl | ⟨-, hlen, hsynced⟩ := hcompleted
        · exact ⟨Nat.zero_le 1, fun hne ↦ absurd rfl hne⟩
        · exact ⟨hlen.le, fun _ ↦ hsynced⟩
      · -- a failed attempt has been handed nothing, so the rest of the run decides
        rw [hresult] at hcompleted
        obtain rfl | ⟨hnone, -⟩ := hcompleted
        · cases hcancelled : a.cancelled with
          | true =>
              rw [workerTaskLoop_cancelled hresult hcancelled]
              exact ⟨Nat.zero_le 1, fun hne ↦ absurd rfl hne⟩
          | false =>
              rw [hresult] at hnext
              have hrest := ih (nextInterval interval) is' (hnext (Option.some_ne_none err) hcancelled)
              rw [workerTaskLoop_retried hresult hcancelled]
              exact ⟨hrest.once, hrest.synced⟩
        · cases hnone

/-- If every attempt that is made and handed a certificate can parse and save it, the worker's run
gets one at most and leaves it saved, however many attempts fail before. -/
theorem saved_of_completes (P : Packages KeyPair) (task : Task) (attempts : List Attempt)
    (is : Issuer KeyPair) (h : EachCompletes P task attempts is) :
    (workerTask P task attempts is).Saved P :=
  workerTaskLoop_saved task minute attempts is h

/-! ## The condition is needed -/

theorem workerTaskLoop_append (task : Task) (interval : Time) (attempts more : List Attempt)
    (is : Issuer KeyPair)
    (h : (workerTaskLoop P task interval attempts is).ending = .running) :
    ∃ interval', let first := workerTaskLoop P task interval attempts is
      let second := workerTaskLoop P task interval' more first.issuer
      (workerTaskLoop P task interval (attempts ++ more) is).ending = second.ending ∧
      (workerTaskLoop P task interval (attempts ++ more) is).obtained =
        first.obtained ++ second.obtained := by
  induction attempts generalizing interval is with
  | nil => exact ⟨interval, rfl, rfl⟩
  | cons a rest ih =>
      rw [List.cons_append]
      rcases hresult : task.run P a is with ⟨_ | err, is', got⟩
      · rw [workerTaskLoop_finished hresult] at h
        cases h
      · cases hcancelled : a.cancelled with
        | true =>
            rw [workerTaskLoop_cancelled hresult hcancelled] at h
            cases h
        | false =>
            rw [workerTaskLoop_retried hresult hcancelled] at h ⊢
            rw [workerTaskLoop_retried hresult hcancelled]
            obtain ⟨interval', hending, hobtained⟩ := ih (nextInterval interval) is' h
            refine ⟨interval', hending, ?_⟩
            change got ++ _ = got ++ _ ++ _
            rw [hobtained, List.append_assoc]

def Issuer.hasCert (is : Issuer KeyPair) : Prop := is.leCert.isSome ∧ is.tlsCert.isSome

theorem renewOnce_of_not_hasCert (h : ¬ is.hasCert) :
    ∃ err, renewOnce P a is = (some err, is, []) := by
  rw [renewOnce]
  split
  · rename_i hle htls
    exact absurd ⟨Option.isSome_of_eq_some hle, Option.isSome_of_eq_some htls⟩ h
  · exact ⟨_, rfl⟩

theorem getLEClient_certs (a : Attempt) (is : Issuer KeyPair) :
    (getLEClient a is).2.leCert = is.leCert ∧ (getLEClient a is).2.tlsCert = is.tlsCert := by
  rw [getLEClient]
  split_ifs
  · exact ⟨rfl, rfl⟩
  · split <;> exact ⟨rfl, rfl⟩

theorem writeCert_certs (a : Attempt) (is : Issuer KeyPair) :
    (writeCert P a is).2.leCert = is.leCert ∧ (writeCert P a is).2.tlsCert = is.tlsCert := by
  rw [writeCert]
  split <;> exact ⟨rfl, rfl⟩

theorem install_hasCert (h : is.hasCert) (domain : Reasoning.GoString) (res : Resource) :
    (install P a is domain res).2.hasCert := by
  rw [install]
  split
  · exact h
  · rw [Issuer.hasCert, (writeCert_certs ..).1, (writeCert_certs ..).2]
    exact ⟨rfl, rfl⟩

theorem renewOnce_hasCert (h : is.hasCert) : (renewOnce P a is).2.1.hasCert := by
  have hclient : (getLEClient a is).2.hasCert := by
    rw [Issuer.hasCert, (getLEClient_certs a is).1, (getLEClient_certs a is).2]
    exact h
  rw [renewOnce]
  split
  · split_ifs
    · exact h
    · split
      · rename_i heq
        rwa [heq] at hclient
      · rename_i heq
        rw [heq] at hclient
        split
        · exact hclient
        · exact install_hasCert hclient _ _
  · exact h

theorem workerTaskLoop_hasCert (interval : Time) (attempts : List Attempt) (is : Issuer KeyPair)
    (h : is.hasCert) : (workerTaskLoop P .renewOnce interval attempts is).issuer.hasCert := by
  induction attempts generalizing interval is with
  | nil => exact h
  | cons a rest ih =>
      have hnext : (Task.renewOnce.run P a is).2.1.hasCert := renewOnce_hasCert h
      rcases hresult : Task.renewOnce.run P a is with ⟨_ | err, is', got⟩
      · rw [workerTaskLoop_finished hresult]
        rwa [hresult] at hnext
      · rw [hresult] at hnext
        cases hcancelled : a.cancelled with
        | true =>
            rw [workerTaskLoop_cancelled hresult hcancelled]
            exact hnext
        | false =>
            rw [workerTaskLoop_retried hresult hcancelled]
            exact ih _ is' hnext

theorem workerTaskLoop_obtained_eq_nil (interval : Time) (attempts : List Attempt)
    (is : Issuer KeyPair) (h : ¬ is.hasCert) :
    (workerTaskLoop P .renewOnce interval attempts is).obtained = [] := by
  induction attempts generalizing interval with
  | nil => rfl
  | cons a rest ih =>
      obtain ⟨err, hresult⟩ : ∃ err, Task.renewOnce.run P a is = (some err, is, []) :=
        renewOnce_of_not_hasCert h
      cases hcancelled : a.cancelled with
      | true => rw [workerTaskLoop_cancelled hresult hcancelled]
      | false =>
          rw [workerTaskLoop_retried hresult hcancelled]
          exact ih _

/-- An attempt at which nothing fails. -/
def smooth (now : Time) (res : Resource) : Attempt :=
  ⟨now, none, none, none, .ok res, .done, false⟩

theorem getLEClient_smooth (now : Time) (res : Resource) (is : Issuer KeyPair) :
    ∃ is', getLEClient (smooth now res) is = (none, is') := by
  rw [getLEClient]
  split_ifs <;> exact ⟨_, rfl⟩

/-- Whatever has happened, another attempt can get a certificate and save it. -/
theorem exists_obtaining (task : Task) {res : Resource} {tlsCert : TLSCertificate KeyPair}
    (hparse : parseX509 P res.certificate res.privateKey = .ok tlsCert) (is : Issuer KeyPair)
    (h : task = .renewOnce → is.hasCert) :
    ∃ a is', task.run P a is = (none, is', [res]) := by
  cases task with
  | issueAndSaveCertificate =>
      obtain ⟨is', hclient⟩ := getLEClient_smooth 0 res is
      obtain ⟨hnone, -⟩ := install_synced (a := smooth 0 res) hparse rfl is' is'.domain
      refine ⟨smooth 0 res, (install P (smooth 0 res) is' is'.domain res).2, ?_⟩
      rw [Task.run, issueAndSaveCertificate, hclient]
      exact Prod.ext hnone rfl
  | renewOnce =>
      obtain ⟨leCert, hle⟩ := Option.isSome_iff_exists.mp (h rfl).1
      obtain ⟨old, htls⟩ := Option.isSome_iff_exists.mp (h rfl).2
      -- at the moment the old certificate expires
      let a := smooth old.notAfter res
      obtain ⟨is', hclient⟩ := getLEClient_smooth old.notAfter res is
      obtain ⟨hnone, -⟩ := install_synced (a := a) hparse rfl is' leCert.domain
      have hdue : ¬ timeUntil a.now old.notAfter > 30 * 24 * hour := by
        change ¬ timeUntil old.notAfter old.notAfter > 30 * 24 * hour
        rw [timeUntil, sub_self]
        decide
      refine ⟨a, (install P a is' leCert.domain res).2, ?_⟩
      rw [Task.run, renewOnce, hle, htls]
      simp only [if_neg hdue]
      rw [hclient]
      exact Prod.ext hnone rfl

/-- Once a certificate has been handed out and the run goes on, the run can end with two of them. -/
theorem exists_unsaved (task : Task) (attempts : List Attempt) (is : Issuer KeyPair) {res : Resource}
    {tlsCert : TLSCertificate KeyPair}
    (hparse : parseX509 P res.certificate res.privateKey = .ok tlsCert)
    (hrunning : (workerTask P task attempts is).ending = .running)
    (hobtained : (workerTask P task attempts is).obtained ≠ []) :
    ∃ a, (workerTask P task (attempts ++ [a]) is).ending = .finished ∧
      ¬ (workerTask P task (attempts ++ [a]) is).Saved P := by
  have hcert : task = .renewOnce → (workerTask P task attempts is).issuer.hasCert := by
    rintro rfl
    apply workerTaskLoop_hasCert
    by_contra hnot
    exact hobtained (workerTaskLoop_obtained_eq_nil _ _ _ hnot)
  obtain ⟨a, is', hrun⟩ := exists_obtaining task hparse _ hcert
  obtain ⟨interval', hending, hmore⟩ := workerTaskLoop_append task minute attempts [a] is hrunning
  rw [workerTask] at hrun hobtained
  rw [workerTaskLoop_finished hrun] at hending hmore
  refine ⟨a, hending, fun hsaved ↦ ?_⟩
  have honce := hsaved.once
  rw [workerTask, hmore, List.length_append, List.length_singleton] at honce
  exact hobtained (List.length_eq_zero_iff.mp (by omega))

/-! ## Two runs

A certificate is one byte here, the day on which it expires. -/

def dated : Packages (List UInt8) where
  x509KeyPair cert _ := .ok cert
  leafDER := id
  parseCertificate der := .ok (24 * hour * (der.headD 0).toNat)
  marshal c := c.cert ++ c.key

def newIssuer : Issuer (List UInt8) := ⟨[97], false, none, none, none⟩

/-- The certificate in use expires on day 1. -/
def expiring : Issuer (List UInt8) :=
  ⟨[97], true, some ⟨[97], [1], [5], []⟩, some ⟨[1], 24 * hour⟩, some [1, 5]⟩

/-- Let's Encrypt hands out a certificate that expires on day 90. -/
def handedOut (now : Time) (writeFile : WriteResult) : Attempt :=
  ⟨now, none, none, none, .ok ⟨[], [6], [90]⟩, writeFile, false⟩

def refused (now : Time) : Attempt :=
  ⟨now, none, none, none, .error (.other [101]), .done, false⟩

/-- The first attempt is refused, the second one succeeds. -/
theorem saved_afterRefusal :
    (workerTask dated .renewOnce [refused 0, handedOut minute .done] expiring).ending = .finished ∧
      (workerTask dated .renewOnce [refused 0, handedOut minute .done] expiring).Saved dated := by
  refine ⟨by decide, saved_of_completes dated .renewOnce _ expiring ⟨?_, fun _ _ ↦ ⟨?_, ?_⟩⟩⟩
  · intro _ res hres
    cases hres
  · intro _ res hres
    cases hres
    exact ⟨⟨_, rfl⟩, rfl⟩
  · exact fun _ _ ↦ trivial

/-- The certificate of the first attempt cannot be saved. -/
def firstUnsaved : List Attempt :=
  [handedOut 0 (.failed (.other [101]) none), handedOut minute .done]

/-- The next attempt of `renewOnce` returns nil with the old certificate still in the file; the next
one of `issueAndSaveCertificate` obtains a second certificate. -/
theorem failed_write_unsaved :
    ((workerTask dated .renewOnce firstUnsaved expiring).ending = .finished ∧
      ¬ (workerTask dated .renewOnce firstUnsaved expiring).Saved dated) ∧
    ((workerTask dated .issueAndSaveCertificate firstUnsaved newIssuer).ending = .finished ∧
      ¬ (workerTask dated .issueAndSaveCertificate firstUnsaved newIssuer).Saved dated) := by
  refine ⟨⟨by decide, fun h ↦ ?_⟩, by decide, fun h ↦ ?_⟩
  · obtain ⟨leCert, tlsCert, hle, -, -, hfile⟩ := h.synced (by decide)
    have hleCert : (workerTask dated .renewOnce firstUnsaved expiring).issuer.leCert =
        some ⟨[97], [90], [6], []⟩ := by decide
    cases hleCert.symm.trans hle
    exact absurd hfile (by decide)
  · exact absurd h.once (by decide)

end CommonLib.XHTTP
