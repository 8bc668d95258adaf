import CommonLib.Reasoning.Run
import CommonLib.XStats.Service

/-!
# No traffic is lost or counted twice

As long as no bucket wraps, what has been reported for a session is what the reports passed to
`onFlush` say about it together with what the cache holds.
-/

namespace CommonLib.XStats

open CommonLib.Reasoning CommonLib.XError CommonLib.XCache

/-! ## What a value stands for -/

structure Amount where
  rx : UInt64
  tx : UInt64
  created : UInt64
  data : Bytes

/-- The layout of `toValue`. -/
def Amount.bytes (a : Amount) : Bytes :=
  leBytes 8 a.rx.toNat ++ (leBytes 8 a.tx.toNat ++ (leBytes 8 a.created.toNat ++
    (leBytes 2 (UInt16.ofNat a.data.length).toNat ++ a.data)))

def Amount.add (a : Amount) (drx dtx : UInt64) : Amount :=
  { a with rx := a.rx + drx, tx := a.tx + dtx }

theorem Amount.length_bytes (a : Amount) : a.bytes.length = 26 + a.data.length := by
  simp only [bytes, List.length_append, length_leBytes]
  omega

/-! ## Numbers in place -/

theorem putUint64_append (v : UInt64) {off : Nat} (pre : Bytes) {old : Bytes} (tail : Bytes)
    (hpre : pre.length = off) (hold : old.length = 8) :
    putUint64 off v (pre ++ (old ++ tail)) = .ok (pre ++ (leBytes 8 v.toNat ++ tail)) := by
  have hlong : ¬ (pre ++ (old ++ tail)).length < off + 8 := by
    rw [List.length_append, List.length_append]
    omega
  have hdrop : (pre ++ (old ++ tail)).drop (off + 8) = tail := by
    rw [← List.append_assoc]
    exact List.drop_left' (by rw [List.length_append, hpre, hold])
  rw [putUint64, if_neg hlong, List.take_left' hpre, hdrop, List.append_assoc]

theorem rxTx_append (rx tx : UInt64) {rx₀ tx₀ : Bytes} (tail : Bytes) (hrx : rx₀.length = 8)
    (htx : tx₀.length = 8) :
    rxTx rx tx (rx₀ ++ (tx₀ ++ tail)) =
      .ok (leBytes 8 rx.toNat ++ (leBytes 8 tx.toNat ++ tail)) := by
  have hne : (rx₀ ++ (tx₀ ++ tail)).length ≠ 0 := by
    rw [List.length_append]
    omega
  have hfirst : putUint64 0 rx (rx₀ ++ (tx₀ ++ tail)) =
      .ok (leBytes 8 rx.toNat ++ (tx₀ ++ tail)) :=
    putUint64_append rx [] (tx₀ ++ tail) rfl hrx
  rw [rxTx, if_neg hne, hfirst]
  exact putUint64_append tx _ tail (length_leBytes ..) htx

theorem parseRxTx_append (rx tx : UInt64) (tail : Bytes) :
    parseRxTx (leBytes 8 rx.toNat ++ (leBytes 8 tx.toNat ++ tail)) = (rx, tx) := by
  have hlong : ¬ (leBytes 8 rx.toNat ++ (leBytes 8 tx.toNat ++ tail)).length < 16 := by
    rw [List.length_append, List.length_append, length_leBytes, length_leBytes]
    omega
  rw [parseRxTx, if_neg hlong, List.take_left' (length_leBytes ..),
    List.drop_left' (length_leBytes ..), List.take_left' (length_leBytes ..), ofNat_leNat_uint64,
    ofNat_leNat_uint64]

theorem part_append {off n : Nat} (pre : Bytes) {mid : Bytes} (tail : Bytes) (hpre : pre.length = off)
    (hmid : mid.length = n) : part (pre ++ (mid ++ tail)) off n = .ok mid := by
  have hlong : off + n ≤ (pre ++ (mid ++ tail)).length := by
    rw [List.length_append, List.length_append]
    omega
  rw [part, if_pos hlong, List.drop_left' hpre, List.take_left' hmid]

/-! ## Values -/

theorem toValue_eq (json : JSON) (session : Session) (drx dtx nowNano : UInt64) :
    toValue json session drx dtx nowNano =
      .ok (Amount.bytes ⟨drx, dtx, nowNano, json.marshal session.data⟩) := by
  have hrxtx : rxTx drx dtx (List.replicate 16 0) =
      .ok (leBytes 8 drx.toNat ++ (leBytes 8 dtx.toNat ++ [])) :=
    @rxTx_append drx dtx (List.replicate 8 0) (List.replicate 8 0) [] rfl rfl
  rw [toValue, hrxtx]
  simp only [bind, Except.bind, pure, Except.pure, setUint64, setUint16, Amount.bytes,
    List.length_replicate, lt_irrefl, if_false, List.drop_replicate, Nat.sub_self,
    List.replicate_zero, List.append_nil, List.append_assoc]

theorem parseRxTx_bytes (a : Amount) : parseRxTx a.bytes = (a.rx, a.tx) := parseRxTx_append ..

theorem addRxTx_bytes (a : Amount) (drx dtx : UInt64) :
    addRxTx drx dtx a.bytes = .ok (a.add drx dtx).bytes := by
  rw [addRxTx]
  split
  -- `AddRxTx` returns early when there is nothing to add
  next hzero =>
    rw [hzero.1, hzero.2, Amount.add, UInt64.add_zero, UInt64.add_zero]
  next =>
    rw [parseRxTx_bytes]
    exact rxTx_append _ _ _ (length_leBytes ..) (length_leBytes ..)

theorem parse_bytes (json : JSON) (k : Bytes) (a : Amount) (nowNano : UInt64)
    (hlen : a.data.length < 65536) :
    parse json k a.bytes nowNano = .ok ⟨⟨.fromBytes k, json.unmarshal a.data⟩, a.created, a.rx,
      a.tx, nowNano - a.created⟩ := by
  -- the four parts that `parse` cuts the value into
  let head := leBytes 8 a.rx.toNat ++ leBytes 8 a.tx.toNat
  let start := leBytes 8 a.created.toNat
  let len := leBytes 2 (UInt16.ofNat a.data.length).toNat
  have hlenOf : (UInt16.ofNat a.data.length).toNat = a.data.length :=
    UInt16.toNat_ofNat_of_lt' hlen
  have hhead : head.length = 16 := by
    simp only [head, List.length_append, length_leBytes]
  have hstart : start.length = 8 := length_leBytes ..
  have hbytes : a.bytes = head ++ (start ++ (len ++ (a.data ++ []))) := by
    rw [List.append_nil, Amount.bytes, List.append_assoc]
  have hrxtx : part a.bytes 0 16 = .ok head := by
    rw [hbytes]
    exact part_append [] _ rfl hhead
  have hcreated : part a.bytes 16 8 = .ok start := by
    rw [hbytes]
    exact part_append _ _ hhead hstart
  have hlength : part a.bytes 24 2 = .ok len := by
    rw [hbytes, ← List.append_assoc]
    exact part_append _ _ (by rw [List.length_append, hhead, hstart]) (length_leBytes ..)
  have hdata : part a.bytes 26 a.data.length = .ok a.data := by
    rw [hbytes, ← List.append_assoc, ← List.append_assoc]
    refine part_append _ _ ?_ rfl
    rw [List.length_append, List.length_append, hhead, hstart, length_leBytes]
  have hparsed : parseRxTx head = (a.rx, a.tx) := by
    have happend := parseRxTx_append a.rx a.tx []
    rwa [List.append_nil] at happend
  have hcreatedOf : parseUint64 start = a.created := by
    rw [parseUint64, if_neg (by rw [hstart]; exact lt_irrefl 8), List.take_of_length_le hstart.le,
      ofNat_leNat_uint64]
  have hlengthOf : (parseUint16 len).toNat = a.data.length := by
    have hle : len.length = 2 := length_leBytes ..
    rw [parseUint16, if_neg (by rw [hle]; exact lt_irrefl 2), List.take_of_length_le hle.le,
      leNat_leBytes (UInt16.toNat_lt _), UInt16.ofNat_toNat, hlenOf]
  simp only [parse, hrxtx, hcreated, hlength, hparsed, hcreatedOf, hlengthOf, hdata, bind,
    Except.bind, pure, Except.pure]

/-- A value to which traffic is added, one call after another. -/
def addAll (deltas : List (UInt64 × UInt64)) (v : Bytes) : Except Crash Bytes :=
  deltas.foldlM (fun d delta ↦ addRxTx delta.1 delta.2 d) v

theorem addAll_bytes (a : Amount) (deltas : List (UInt64 × UInt64)) :
    addAll deltas a.bytes =
      .ok (a.add (deltas.map Prod.fst).sum (deltas.map Prod.snd).sum).bytes := by
  induction deltas generalizing a with
  | nil =>
      simp only [List.map_nil, List.sum_nil, Amount.add, UInt64.add_zero]
      rfl
  | cons delta deltas ih =>
      rw [addAll, List.foldlM_cons, addRxTx_bytes]
      -- the rest of the fold starts from the sums so far
      have hrest := ih (a.add delta.1 delta.2)
      simp only [Amount.add, UInt64.add_assoc] at hrest
      simp only [List.map_cons, List.sum_cons, Amount.add]
      exact hrest

/-- What `parse` reads back once the cache has accepted the value of a session.  A value that is too
long for its length field is too long for the cache. -/
theorem parse_of_accepted (json : JSON) (id : UUID) (data : SessionData)
    (hjson : json.unmarshal (json.marshal data) = data) (drx dtx created : UInt64) (value : Bytes)
    (hvalue : toValue json ⟨id, data⟩ drx dtx created = .ok value) (b b' : Bucket)
    (junk : Nat → UInt8) (h : UInt64) (onEvict : Bool) (items : Option Items)
    (haccepted : b.setLocked junk id.bytes (.own value) h onEvict = .ok (⟨.ok (), items⟩, b'))
    (deltas : List (UInt64 × UInt64)) (nowNano : UInt64) :
    (UInt16.ofNat (json.marshal data).length).toNat = (json.marshal data).length ∧
      ∃ v, addAll deltas value = .ok v ∧
        parse json id.bytes v nowNano = .ok ⟨⟨id, data⟩, created,
          drx + (deltas.map Prod.fst).sum, dtx + (deltas.map Prod.snd).sum, nowNano - created⟩ := by
  rw [toValue_eq] at hvalue
  cases hvalue
  have hlen : (json.marshal data).length < 65536 := by
    have hfits := (setLocked_eq_ok haccepted).1
    rw [Source.length, Amount.length_bytes, chunkSize] at hfits
    dsimp only at hfits
    omega
  refine ⟨UInt16.toNat_ofNat_of_lt' hlen, _, addAll_bytes .., ?_⟩
  rw [parse_bytes _ _ _ _ (show (json.marshal data).length < 65536 from hlen)]
  simp only [Amount.add, hjson, UUID.fromBytes, id.length_eq, dite_true]

/-- Data of one letter each. -/
def letters : SessionData := ⟨.ofASCII "i", .ofASCII "u", .ofASCII "c"⟩

/-- A session of sixteen ones in an empty bucket, and two more calls, with a sum past `2 ^ 64`. -/
theorem parse_of_accepted_two :
    encodingJSON.marshal letters =
      GoString.ofASCII "\x7b\"i_id\":\"i\",\"u_id\":\"u\",\"c\":\"c\"\x7d" ∧
    ∃ value b' v,
      toValue encodingJSON ⟨⟨List.replicate 16 1, rfl⟩, letters⟩ 1 2 9 = .ok value ∧
      (Bucket.empty 1).setLocked (fun _ ↦ 0) (List.replicate 16 1) (.own value) 5 true =
        .ok (⟨.ok (), none⟩, b') ∧
      addAll [(10, 20), (18446744073709551615, 3)] value = .ok v ∧
      parse encodingJSON (List.replicate 16 1) v 19 =
        .ok ⟨⟨⟨List.replicate 16 1, rfl⟩, letters⟩, 9, 10, 25, 10⟩ := by
  obtain ⟨-, v, hadd, hparse⟩ := parse_of_accepted encodingJSON ⟨List.replicate 16 1, rfl⟩ letters
    (unmarshal_marshal letters) 1 2 9 _ rfl (.empty 1) _ (fun _ ↦ 0) 5 true none rfl
    [(10, 20), (18446744073709551615, 3)] 19
  exact ⟨rfl, _, _, v, rfl, rfl, hadd, hparse⟩

/-! ## Sums -/

def Report.delta (r : Report) : UInt64 × UInt64 := (r.deltaRx, r.deltaTx)

def Call.delta (call : Call) : UInt64 × UInt64 := (call.drx, call.dtx)

/-- The sum of what has been reported to the service for a session, modulo `2 ^ 64`. -/
def Record.reported (r : Record) (id : UUID) : UInt64 × UInt64 :=
  ((r.calls.filter fun call ↦ call.sessionID = id).map Call.delta).sum

/-- The sum over all reports passed to `onFlush`. -/
def Record.flushed (r : Record) (id : UUID) : UInt64 × UInt64 :=
  ((r.flushes.flatten.filter fun report ↦ report.session.sessionID = id).map Report.delta).sum

/-- What an entry adds to the sums. -/
def amountOf : Option Bytes → UInt64 × UInt64
  | some v => parseRxTx v
  | none => 0

/-- The amount still in the cache. -/
def State.held (hash : Bytes → UInt64) (s : State) (id : UUID) : UInt64 × UInt64 :=
  amountOf (s.sessions.current hash id.bytes)

/-- Nothing is lost or counted twice; a flush reports a session once; and `onData` has been called
once, since the last flush, for each session that has been reported since. -/
structure Conserved (hash : Bytes → UInt64) (s : State) : Prop where
  sum : ∀ id, s.record.flushed id + s.held hash id = s.record.reported id
  once : ∀ reports ∈ s.record.flushes,
    (reports.map fun report ↦ report.session.sessionID).Nodup
  asked : ∀ id, s.record.asked.count id = if id ∈ s.record.seen then 1 else 0

theorem reported_append (calls : List Call) (call : Call) (id : UUID) :
    (((calls ++ [call]).filter fun c ↦ c.sessionID = id).map Call.delta).sum =
      ((calls.filter fun c ↦ c.sessionID = id).map Call.delta).sum +
        if call.sessionID = id then call.delta else 0 := by
  rw [List.filter_append, List.map_append, List.sum_append]
  congr 1
  by_cases hid : call.sessionID = id
  · rw [if_pos hid, List.filter_cons_of_pos (by simpa using hid)]
    simp
  · rw [if_neg hid, List.filter_cons_of_neg (by simpa using hid)]
    simp

theorem flushed_append (flushes : List (List Report)) (reports : List Report) (id : UUID) :
    (((flushes ++ [reports]).flatten.filter fun r ↦ r.session.sessionID = id).map
        Report.delta).sum =
      ((flushes.flatten.filter fun r ↦ r.session.sessionID = id).map Report.delta).sum +
        ((reports.filter fun r ↦ r.session.sessionID = id).map Report.delta).sum := by
  rw [List.flatten_append, List.flatten_singleton, List.filter_append, List.map_append,
    List.sum_append]

/-! ## The invariant -/

/-- The entries are what `toValue` makes and `AddRxTx` keeps, under session ids. -/
def Formed (last : Bytes → Option Bytes) : Prop :=
  ∀ k v, last k = some v → k.length = 16 ∧ ∃ a : Amount, v = a.bytes ∧ a.data.length < 65536

structure Balanced (U : Set Bytes) (hash : Bytes → UInt64) (s : State)
    (last : Bytes → Option Bytes) : Prop where
  settled : Settled hash U s.sessions last
  onEvict : s.sessions.onEvict = true
  formed : Formed last
  sum : ∀ id, s.record.flushed id + amountOf (last id.bytes) = s.record.reported id
  once : ∀ reports ∈ s.record.flushes,
    (reports.map fun report ↦ report.session.sessionID).Nodup
  nodup : s.record.asked.Nodup
  asked : ∀ id, id ∈ s.record.asked ↔ last id.bytes ≠ none
  seen : ∀ id, id ∈ s.record.seen ↔ last id.bytes ≠ none

variable {hash : Bytes → UInt64} {U : Set Bytes} {s : State} {last : Bytes → Option Bytes}

theorem Balanced.conserved (h : Balanced U hash s last) : Conserved hash s where
  sum id := by
    rw [State.held, h.settled.current_eq]
    exact h.sum id
  once := h.once
  asked id := by
    rw [h.nodup.count]
    exact if_congr ((h.asked id).trans (h.seen id).symm) rfl rfl

/-! ## Flushes -/

theorem fromBytes_bytes (id : UUID) : UUID.fromBytes id.bytes = id := dif_pos id.length_eq

theorem bytes_fromBytes {k : Bytes} (h : k.length = 16) : (UUID.fromBytes k).bytes = k := by
  rw [UUID.fromBytes, dif_pos h]

/-- The reports of items that are session entries. -/
theorem onEvict_eq (json : JSON) (nowNano : UInt64) {items : Items}
    (h : ∀ k v, (k, v) ∈ items → ∃ a : Amount, v = a.bytes ∧ a.data.length < 65536) :
    ∃ reports, onEvict json nowNano items = .ok reports ∧
      (reports.map fun r ↦ (r.session.sessionID, r.delta)) =
        items.map fun kv ↦ (UUID.fromBytes kv.1, parseRxTx kv.2) := by
  induction items with
  | nil => exact ⟨[], rfl, rfl⟩
  | cons kv items ih =>
      obtain ⟨k, v⟩ := kv
      obtain ⟨a, rfl, hlen⟩ := h k v List.mem_cons_self
      obtain ⟨reports, hreports, hmap⟩ := ih fun k' v' hmem ↦ h k' v' (List.mem_cons_of_mem _ hmem)
      refine ⟨⟨⟨.fromBytes k, json.unmarshal a.data⟩, a.created, a.rx, a.tx,
        nowNano - a.created⟩ :: reports, ?_, ?_⟩
      · rw [onEvict, parse_bytes json k a nowNano hlen, hreports]
        rfl
      · rw [List.map_cons, List.map_cons, hmap, parseRxTx_bytes]
        rfl

/-- The reports for one session, when no session has two. -/
theorem sum_reports {reports : List Report} {id : UUID} {v : Option Bytes}
    (hnodup : (reports.map fun r ↦ r.session.sessionID).Nodup)
    (hmem : ∀ x, (id, x) ∈ (reports.map fun r ↦ (r.session.sessionID, r.delta)) ↔
      v.map parseRxTx = some x) :
    ((reports.filter fun r ↦ r.session.sessionID = id).map Report.delta).sum = amountOf v := by
  rw [filter_key_eq hnodup]
  cases v with
  | none =>
      have hnone : reports.find? (fun r ↦ decide (r.session.sessionID = id)) = none := by
        apply List.find?_eq_none.mpr
        intro r hr hid
        have hpair := List.mem_map_of_mem (f := fun r ↦ (r.session.sessionID, r.delta)) hr
        rw [of_decide_eq_true hid] at hpair
        cases (hmem r.delta).mp hpair
      rw [hnone]
      rfl
  | some v =>
      obtain ⟨r, hr, hpair⟩ := List.mem_map.mp ((hmem (parseRxTx v)).mpr rfl)
      obtain ⟨hid, hdelta⟩ := Prod.mk.inj hpair
      rw [(find?_key_eq_some_iff hnodup).mpr ⟨hr, hid⟩]
      exact (List.sum_singleton ..).trans hdelta

section Reports

variable {items : Items} {reports : List Report}

/-- Items with distinct keys give reports on distinct sessions. -/
theorem reports_nodup (hmap : (reports.map fun r ↦ (r.session.sessionID, r.delta)) =
      items.map fun kv ↦ (UUID.fromBytes kv.1, parseRxTx kv.2))
    (hlen : ∀ k v, (k, v) ∈ items → k.length = 16) (hkeys : (items.map Prod.fst).Nodup) :
    (reports.map fun r ↦ r.session.sessionID).Nodup := by
  have hfst : (reports.map fun r ↦ r.session.sessionID) =
      (items.map Prod.fst).map UUID.fromBytes := by
    have hmap' := congrArg (List.map Prod.fst) hmap
    simpa only [List.map_map, Function.comp_def] using hmap'
  rw [hfst]
  apply hkeys.map_on
  intro k hk k' hk' heq
  obtain ⟨⟨k, v⟩, hkv, rfl⟩ := List.mem_map.mp hk
  obtain ⟨⟨k', v'⟩, hkv', rfl⟩ := List.mem_map.mp hk'
  rw [← bytes_fromBytes (hlen k v hkv), ← bytes_fromBytes (hlen k' v' hkv')]
  exact congrArg UUID.bytes heq

theorem mem_reports (hmap : (reports.map fun r ↦ (r.session.sessionID, r.delta)) =
      items.map fun kv ↦ (UUID.fromBytes kv.1, parseRxTx kv.2))
    (hlen : ∀ k v, (k, v) ∈ items → k.length = 16)
    (hmem : ∀ k v, (k, v) ∈ items ↔ last k = some v) (id : UUID) (x : UInt64 × UInt64) :
    (id, x) ∈ (reports.map fun r ↦ (r.session.sessionID, r.delta)) ↔
      (last id.bytes).map parseRxTx = some x := by
  rw [hmap, List.mem_map, Option.map_eq_some_iff]
  constructor
  · rintro ⟨⟨k, v⟩, hkv, hpair⟩
    obtain ⟨rfl, rfl⟩ := Prod.mk.inj hpair
    rw [bytes_fromBytes (hlen k v hkv)]
    exact ⟨v, (hmem k v).mp hkv, rfl⟩
  · rintro ⟨v, hlast, rfl⟩
    exact ⟨(id.bytes, v), (hmem _ _).mpr hlast, by rw [fromBytes_bytes]⟩

end Reports

theorem flush_balanced (h : Balanced U hash s last) (json : JSON) (nowNano : UInt64) :
    ∃ t, step hash json s (.flush nowNano) = some t ∧ Balanced U hash t fun _ ↦ none := by
  obtain ⟨out, c, hreset, hkeys, hmem, honEvict, hsettled⟩ := h.settled.reset h.onEvict
  have hformed (k v : Bytes) (hkv : (k, v) ∈ out.evicted.getD []) :=
    h.formed k v ((hmem k v).mp hkv)
  obtain ⟨reports, hreports, hmap⟩ := onEvict_eq json nowNano fun k v hkv ↦ (hformed k v hkv).2
  have hids := reports_nodup hmap (fun k v hkv ↦ (hformed k v hkv).1) hkeys
  refine ⟨⟨c, s.record.calls, s.record.flushes ++ [reports], [], []⟩, ?_, hsettled, honEvict, nofun,
    fun id ↦ ?_, fun l hl ↦ ?_, List.nodup_nil, fun id ↦ ?_, fun id ↦ ?_⟩
  · rw [step, exec, hreset]
    simp only [bind, Except.bind, hreports]
    rfl
  · -- what was held is now in the reports
    have hpairs := mem_reports hmap (fun k v hkv ↦ (hformed k v hkv).1) hmem id
    rw [Record.flushed, flushed_append, sum_reports hids hpairs]
    exact (add_zero _).trans (h.sum id)
  · obtain hold | hnew := List.mem_append.mp hl
    · exact h.once l hold
    · cases List.mem_singleton.mp hnew
      exact hids
  · exact iff_of_false List.not_mem_nil (not_not.mpr rfl)
  · exact iff_of_false List.not_mem_nil (not_not.mpr rfl)

/-! ## Reports -/

theorem UUID.bytes_inj {id id' : UUID} : id.bytes = id'.bytes ↔ id = id' := by
  cases id
  cases id'
  exact ⟨fun h ↦ by cases h; rfl, fun h ↦ by cases h; rfl⟩

theorem update_bytes_of_ne {id id' : UUID} (h : id' ≠ id) (v : Option Bytes) :
    Function.update last id.bytes v id'.bytes = last id'.bytes :=
  Function.update_of_ne (fun hbytes ↦ h (UUID.bytes_inj.mp hbytes)) ..

/-- A call whose deltas have been added to the entry of its session. -/
theorem Balanced.report {call : Call} {c : Cache} {a : Amount} (h : Balanced U hash s last)
    (hsettled : Settled hash U c (Function.update last call.sessionID.bytes (some a.bytes)))
    (honEvict : c.onEvict = true) (hlen : a.data.length < 65536)
    (hsum : (a.rx, a.tx) = amountOf (last call.sessionID.bytes) + call.delta) {asked : List UUID}
    (hasked : asked = if last call.sessionID.bytes = none then
      call.sessionID :: s.record.asked else s.record.asked) :
    Balanced U hash ⟨c, s.record.calls ++ [call], s.record.flushes ++ [[]],
      call.sessionID :: s.record.seen, asked⟩
      (Function.update last call.sessionID.bytes (some a.bytes)) where
  settled := hsettled
  onEvict := honEvict
  formed k v hlast := by
    by_cases hk : k = call.sessionID.bytes
    · subst hk
      rw [Function.update_self] at hlast
      cases hlast
      exact ⟨call.sessionID.length_eq, a, rfl, hlen⟩
    · rw [Function.update_of_ne hk] at hlast
      exact h.formed k v hlast
  sum id := by
    -- `onFlush` is called without reports
    rw [Record.flushed, Record.reported, flushed_append, reported_append]
    change s.record.flushed id + 0 + _ = s.record.reported id + _
    rw [add_zero, ← h.sum id]
    by_cases hid : id = call.sessionID
    · subst hid
      rw [Function.update_self, if_pos rfl, amountOf, parseRxTx_bytes, hsum, add_assoc]
    · rw [update_bytes_of_ne hid, if_neg (Ne.symm hid), add_zero]
  once l hl := by
    obtain hold | hnew := List.mem_append.mp hl
    · exact h.once l hold
    · cases List.mem_singleton.mp hnew
      exact List.nodup_nil
  nodup := by
    rw [hasked]
    split
    next hnone => exact List.nodup_cons.mpr ⟨fun hmem ↦ (h.asked _).mp hmem hnone, h.nodup⟩
    next => exact h.nodup
  asked id := by
    rw [hasked]
    by_cases hid : id = call.sessionID
    · subst hid
      rw [Function.update_self]
      refine iff_of_true ?_ (Option.some_ne_none _)
      split
      next => exact List.mem_cons_self
      next hsome => exact (h.asked _).mpr hsome
    · rw [update_bytes_of_ne hid, ← h.asked id]
      split
      · exact List.mem_cons.trans (or_iff_right hid)
      · exact Iff.rfl
  seen id := by
    by_cases hid : id = call.sessionID
    · subst hid
      rw [Function.update_self]
      exact iff_of_true List.mem_cons_self (Option.some_ne_none _)
    · rw [update_bytes_of_ne hid, ← h.seen id]
      exact List.mem_cons.trans (or_iff_right hid)

/-- If the call makes a value, the cache accepts it and the bucket it goes to does not wrap. -/
def Roomy (hash : Bytes → UInt64) (json : JSON) (s : State) : Event → Prop
  | .report call _ _ => s.sessions.current hash call.sessionID.bytes = none → ∀ v,
      toValue json ⟨call.sessionID, call.data⟩ call.drx call.dtx call.nowNano = .ok v →
      kvLen call.sessionID.bytes v < chunkSize ∧
        ((s.sessions.buckets (Cache.bucketIdx hash call.sessionID.bytes)).place
          (kvLen call.sessionID.bytes v)).wraps = false
  | .flush _ => True

theorem report_balanced {json : JSON} {call : Call} {junk : Nat → UInt8} {nowNano : UInt64}
    (h : Balanced U hash s last) (hk : call.sessionID.bytes ∈ U)
    (hroomy : Roomy hash json s (.report call junk nowNano)) :
    ∃ t last', step hash json s (.report call junk nowNano) = some t ∧
      Balanced U hash t last' := by
  have hdelta (rx tx : UInt64) : (rx + call.drx, tx + call.dtx) = (rx, tx) + call.delta := rfl
  cases hlast : last call.sessionID.bytes with
  | none =>
      let a : Amount := ⟨call.drx, call.dtx, call.nowNano, json.marshal call.data⟩
      have hvalue := toValue_eq json ⟨call.sessionID, call.data⟩ call.drx call.dtx call.nowNano
      obtain ⟨hfits, hwraps⟩ := hroomy ((h.settled.current_eq _).trans hlast) a.bytes hvalue
      have hmutator : call.mutator json none = .ok ⟨[], true, .ok (.own a.bytes, true)⟩ := by
        rw [Call.mutator, Option.getD_none, if_pos List.length_nil, hvalue]
        rfl
      obtain ⟨items, c, hupdate, hnil, honEvict, hsettled⟩ :=
        h.settled.updateInPlace_absent junk hk hlast hmutator hfits hwraps
      -- the cache accepts only what fits into a chunk, so the length fits into two bytes
      have hlen : a.data.length < 65536 := by
        rw [kvLen, a.length_bytes] at hfits
        unfold chunkSize at hfits
        omega
      refine ⟨_, _, ?_, h.report hsettled (honEvict.trans h.onEvict) hlen ?_ rfl⟩
      · rw [step, exec, reportStats, hupdate]
        simp only [bind, Except.bind, hnil, onEvict, hlast]
        rfl
      · rw [hlast]
        exact (zero_add _).symm
  | some v =>
      -- the session is known: the deltas are added inside the ring
      obtain ⟨-, a, rfl, hlen⟩ := h.formed _ v hlast
      have hne : a.bytes.length ≠ 0 := by
        rw [a.length_bytes]
        omega
      have hmutator : call.mutator json (some a.bytes) = .ok ⟨(a.add call.drx call.dtx).bytes, false,
          .ok (.part 0 (a.add call.drx call.dtx).bytes.length, false)⟩ := by
        rw [Call.mutator, Option.getD_some, if_neg hne, addRxTx_bytes]
        rfl
      have hlength : (a.add call.drx call.dtx).bytes.length = a.bytes.length := by
        rw [Amount.length_bytes, Amount.length_bytes]
        rfl
      obtain ⟨c, hupdate, honEvict, hsettled⟩ :=
        h.settled.updateInPlace_present junk hlast hmutator hlength
      refine ⟨_, _, ?_, h.report hsettled (honEvict.trans h.onEvict) hlen ?_ rfl⟩
      · rw [step, exec, reportStats, hupdate]
        simp only [bind, Except.bind, Option.getD_none, onEvict, hlast]
        rfl
      · rw [hlast, amountOf, parseRxTx_bytes]
        exact hdelta a.rx a.tx

/-! ## Runs -/

def Event.session : Event → Option UUID
  | .report call _ _ => some call.sessionID
  | .flush _ => none

theorem new_balanced (hinj : Set.InjOn hash U) (hnew : new = .ok s) :
    Balanced U hash s fun _ ↦ none := by
  rw [new] at hnew
  cases hcache : XCache.new maxBytes true with
  | error e =>
      rw [hcache] at hnew
      cases hnew
  | ok c =>
      rw [hcache] at hnew
      cases hnew
      obtain ⟨n, hpos, hle, rfl⟩ := new_eq hcache
      exact ⟨.empty (fun _ ↦ hpos) (fun _ ↦ hle) hinj true, rfl, nofun, fun _ ↦ rfl, nofun,
        List.nodup_nil, fun _ ↦ iff_of_false List.not_mem_nil (not_not.mpr rfl),
        fun _ ↦ iff_of_false List.not_mem_nil (not_not.mpr rfl)⟩

/-- For every sequence of calls and flushes. -/
theorem conserved_of_roomy (hash : Bytes → UInt64) (json : JSON) (s : State) (events : List Event)
    (hnew : new = .ok s)
    (hdistinct : ∀ id ∈ events.filterMap Event.session, ∀ id' ∈ events.filterMap Event.session,
      hash id.bytes = hash id'.bytes → id = id')
    (hroomy : EveryTurn (step hash json) (Roomy hash json) events s) :
    (∃ t, runSteps (step hash json) events s = some t) ∧
      EveryState (step hash json) (Conserved hash) events s := by
  -- the keys of the run; the hashes are distinct on them
  let U : Set Bytes := {k | ∃ id ∈ events.filterMap Event.session, k = id.bytes}
  have hinj : Set.InjOn hash U := by
    rintro _ ⟨id, hid, rfl⟩ _ ⟨id', hid', rfl⟩ heq
    rw [hdistinct id hid id' hid' heq]
  have hturns := hroomy.and_mem (P := fun e ↦ ∀ id, e.session = some id → id.bytes ∈ U)
    fun e he id hid ↦ ⟨id, List.mem_filterMap.mpr ⟨e, he, hid⟩, rfl⟩
  have hstep : ∀ s e, (∃ last, Balanced U hash s last) →
      (∀ id, e.session = some id → id.bytes ∈ U) ∧ Roomy hash json s e →
      ∃ t, step hash json s e = some t ∧ ∃ last, Balanced U hash t last := by
    rintro s e ⟨last, h⟩ ⟨hsession, hroomy⟩
    cases e with
    | report call junk nowNano =>
        obtain ⟨t, last', hstep, hbalanced⟩ := report_balanced h (hsession _ rfl) hroomy
        exact ⟨t, hstep, last', hbalanced⟩
    | flush nowNano =>
        obtain ⟨t, hstep, hbalanced⟩ := flush_balanced h json nowNano
        exact ⟨t, hstep, _, hbalanced⟩
  obtain ⟨hrun, hstates⟩ := hturns.run hstep ⟨_, new_balanced hinj hnew⟩
  exact ⟨hrun, hstates.imp fun s h ↦ h.elim fun _ hbalanced ↦ hbalanced.conserved⟩

/-- A call for the session whose id repeats one byte. -/
def callOf (byte : UInt8) (drx dtx : UInt64) : Call :=
  ⟨⟨List.replicate 16 byte, List.length_replicate⟩, drx, dtx, ⟨[], [], []⟩, 0⟩

/-- Two sessions, one of them reported twice, and a flush. -/
def twoSessions : List Event :=
  [.report (callOf 1 5 7) (fun _ ↦ 0) 0, .report (callOf 2 1 1) (fun _ ↦ 0) 0,
    .report (callOf 1 3 4) (fun _ ↦ 0) 0, .flush 9]

theorem conserved_twoSessions : ∃ s, new = .ok s ∧
    (∃ t, runSteps (step (fun k ↦ (k.headD 0).toUInt64) encodingJSON)
      twoSessions s = some t) ∧
    EveryState (step (fun k ↦ (k.headD 0).toUInt64) encodingJSON)
      (Conserved fun k ↦ (k.headD 0).toUInt64) twoSessions s := by
  refine ⟨_, rfl, conserved_of_roomy _ _ _ _ rfl (by decide) ⟨?_, fun t ht ↦ ⟨?_, fun u hu ↦ ⟨?_,
    fun _ _ ↦ ⟨trivial, fun _ _ ↦ trivial⟩⟩⟩⟩⟩
  · intro _ v hv
    cases hv
    exact ⟨by decide, rfl⟩
  · intro _ v hv
    cases ht
    cases hv
    exact ⟨by decide, rfl⟩
  · intro _ v hv
    cases ht
    cases hu
    cases hv
    exact ⟨by decide, rfl⟩

end CommonLib.XStats
