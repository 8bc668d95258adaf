import Mathlib

/-! Finite maps with a size and an iteration order, as association lists without duplicate keys. -/

namespace CommonLib.Reasoning

abbrev GoMap (K V : Type) := AList (fun _ : K ↦ V)

namespace GoMap

variable {K V : Type}

/-- `len(m)`. -/
def size (m : GoMap K V) : Nat := m.entries.length

theorem size_eq_keys (m : GoMap K V) : size m = m.keys.length := by
  simp [size, AList.keys, List.keys]

variable [DecidableEq K]

theorem size_eq_zero_iff {m : GoMap K V} : size m = 0 ↔ ∀ k, m.lookup k = none := by
  rw [size_eq_keys, List.length_eq_zero_iff, List.eq_nil_iff_forall_not_mem]
  exact forall_congr' fun k ↦ (not_congr AList.mem_keys.symm).trans AList.lookup_eq_none.symm

theorem size_insert_of_notMem {m : GoMap K V} {k : K} (v : V) (h : k ∉ m) :
    size (m.insert k v) = size m + 1 := by
  rw [size_eq_keys, size_eq_keys, AList.keys_insert, List.length_cons,
    List.erase_of_not_mem (fun hk ↦ h (AList.mem_keys.mpr hk))]

theorem size_erase_of_mem {m : GoMap K V} {k : K} (h : k ∈ m) :
    size (m.erase k) + 1 = size m := by
  have hpos := List.length_pos_of_mem (AList.mem_keys.mp h)
  rw [size_eq_keys, size_eq_keys, AList.keys_erase,
    List.length_erase_of_mem (AList.mem_keys.mp h)]
  omega

/-- The entries that satisfy `p`. -/
def filter (m : GoMap K V) (p : V → Bool) : GoMap K V :=
  ⟨m.entries.filter fun e ↦ p e.2, m.nodupKeys.sublist List.filter_sublist⟩

theorem lookup_filter_eq_some {m : GoMap K V} {p : V → Bool} {k : K} {v : V} :
    (m.filter p).lookup k = some v ↔ m.lookup k = some v ∧ p v = true := by
  rw [← Option.mem_def, ← Option.mem_def, AList.mem_lookup_iff, AList.mem_lookup_iff]
  exact List.mem_filter

/-- The entries around that of a key are of other keys. -/
theorem entries_eq_of_lookup {m : GoMap K V} {k : K} {v : V} (h : m.lookup k = some v) :
    ∃ l₁ l₂, m.entries = l₁ ++ ⟨k, v⟩ :: l₂ ∧ ∀ e ∈ l₁ ++ l₂, e.1 ≠ k := by
  obtain ⟨l₁, l₂, hentries⟩ := List.append_of_mem (AList.mem_lookup_iff.mp h)
  have hkeys := m.nodupKeys
  rw [List.NodupKeys, hentries, List.keys, List.map_append, List.map_cons, List.nodup_middle,
    ← List.map_append] at hkeys
  refine ⟨l₁, l₂, hentries, fun e he heq ↦ (List.nodup_cons.mp hkeys).1 ?_⟩
  exact List.mem_map.mpr ⟨e, he, heq⟩

/-- The same keys, with every value mapped by `f`. -/
def map {W : Type} (f : V → W) (m : GoMap K V) : GoMap K W :=
  ⟨m.entries.map (.map id fun _ ↦ f), by
    rw [List.NodupKeys, List.map₂_keys]
    exact m.nodupKeys⟩

theorem lookup_map {W : Type} (f : V → W) (m : GoMap K V) (k : K) :
    (map f m).lookup k = (m.lookup k).map f :=
  List.dlookup_map₂ k

/-! ### Maps filled from a list -/

section Collect

variable {α : Type} {key : α → K} {val : α → V} {l : List α} {a : α} {k : K} {v : V}

/-- The items one after another; a later one replaces an earlier one with the same key. -/
def collect (key : α → K) (val : α → V) (l : List α) : GoMap K V :=
  l.foldl (fun m a ↦ m.insert (key a) (val a)) ∅

theorem collect_concat : collect key val (l ++ [a]) = (collect key val l).insert (key a) (val a) := by
  rw [collect, List.foldl_append]
  rfl

/-- What is found is the last item with the key. -/
theorem last_of_lookup_collect (h : (collect key val l).lookup k = some v) :
    ∃ before a after, l = before ++ a :: after ∧ key a = k ∧ val a = v ∧
      ∀ b ∈ after, key b ≠ k := by
  induction l using List.reverseRecOn with
  | nil => cases h
  | append_singleton l b ih =>
      rw [collect_concat] at h
      by_cases hb : key b = k
      · subst hb
        rw [AList.lookup_insert] at h
        exact ⟨l, b, [], rfl, rfl, Option.some.inj h, nofun⟩
      · rw [AList.lookup_insert_ne (Ne.symm hb)] at h
        obtain ⟨before, a, after, rfl, hkey, hval, hafter⟩ := ih h
        refine ⟨before, a, after ++ [b], by simp, hkey, hval, fun c hc ↦ ?_⟩
        rcases List.mem_append.mp hc with hc | hc
        · exact hafter c hc
        · rwa [List.mem_singleton.mp hc]

theorem lookup_collect_eq_none :
    (collect key val l).lookup k = none ↔ ∀ a ∈ l, key a ≠ k := by
  induction l using List.reverseRecOn with
  | nil => exact iff_of_true rfl nofun
  | append_singleton l b ih =>
      rw [collect_concat]
      by_cases hb : key b = k
      · subst hb
        rw [AList.lookup_insert]
        exact iff_of_false (Option.some_ne_none _) fun h ↦ h b (by simp) rfl
      · rw [AList.lookup_insert_ne (Ne.symm hb), ih]
        simp [or_imp, forall_and, hb]

theorem lookup_collect_append {l' : List α} :
    (collect key val (l ++ l')).lookup k =
      ((collect key val l').lookup k).or ((collect key val l).lookup k) := by
  induction l' using List.reverseRecOn with
  | nil =>
      rw [List.append_nil]
      rfl
  | append_singleton l' b ih =>
      rw [← List.append_assoc, collect_concat, collect_concat]
      by_cases hb : key b = k
      · subst hb
        rw [AList.lookup_insert, AList.lookup_insert]
        rfl
      · rw [AList.lookup_insert_ne (Ne.symm hb), AList.lookup_insert_ne (Ne.symm hb), ih]

/-- An item that is replaced later, or has another key, can be left out. -/
theorem lookup_collect_skip {before after : List α}
    (h : key a ≠ k ∨ ∃ b ∈ after, key b = k) :
    (collect key val (before ++ a :: after)).lookup k =
      (collect key val (before ++ after)).lookup k := by
  rw [lookup_collect_append, lookup_collect_append, ← List.singleton_append, lookup_collect_append]
  rcases h with hkey | ⟨b, hb, hkey⟩
  · have hnone : (collect key val [a]).lookup k = none :=
      lookup_collect_eq_none.mpr fun c hc ↦ List.mem_singleton.mp hc ▸ hkey
    rw [hnone, Option.or_none]
  · have hsome : (collect key val after).lookup k ≠ none :=
      fun hnone ↦ lookup_collect_eq_none.mp hnone b hb hkey
    obtain ⟨v, hv⟩ := Option.ne_none_iff_exists'.mp hsome
    rw [hv]
    rfl

end Collect

end GoMap

/-! ## Records found by a key -/

theorem find?_key_eq_some_iff {α κ : Type*} [DecidableEq κ] {key : α → κ} {l : List α}
    (hl : (l.map key).Nodup) {k : κ} {a : α} :
    l.find? (fun x ↦ decide (key x = k)) = some a ↔ a ∈ l ∧ key a = k := by
  constructor
  · intro h
    exact ⟨List.mem_of_find?_eq_some h, by simpa using List.find?_some h⟩
  · rintro ⟨ha, rfl⟩
    cases hfind : l.find? (fun x ↦ decide (key x = key a)) with
    | none => simpa using List.find?_eq_none.mp hfind a ha
    | some b =>
        have hkey : key b = key a := by simpa using List.find?_some hfind
        rw [List.inj_on_of_nodup_map hl (List.mem_of_find?_eq_some hfind) ha hkey]

theorem filter_key_eq {α κ : Type*} [DecidableEq κ] {key : α → κ} {l : List α}
    (hl : (l.map key).Nodup) (k : κ) :
    l.filter (fun x ↦ decide (key x = k)) = (l.find? (fun x ↦ decide (key x = k))).toList := by
  induction l with
  | nil => rfl
  | cons a l ih =>
      obtain ⟨hnotin, hl⟩ := List.nodup_cons.mp hl
      by_cases ha : key a = k
      · have hrest : l.filter (fun x ↦ decide (key x = k)) = [] := by
          apply List.filter_eq_nil_iff.mpr
          intro x hx hkey
          exact hnotin (ha ▸ of_decide_eq_true hkey ▸ List.mem_map_of_mem hx)
        rw [List.filter_cons_of_pos (by simpa using ha), List.find?_cons_of_pos (by simpa using ha),
          hrest]
        rfl
      · rw [List.filter_cons_of_neg (by simpa using ha), List.find?_cons_of_neg (by simpa using ha),
          ih hl]

end CommonLib.Reasoning
