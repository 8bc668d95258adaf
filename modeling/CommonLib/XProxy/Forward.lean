import CommonLib.Reasoning.Streams

/-!
# Forwarding between the two connections of a tunnel

A loop that reads from one connection and writes to the other until either call returns an error.
Both calls may have done a part of their work by then.
-/

namespace CommonLib.XProxy

open CommonLib.Reasoning

variable {ε : Type}

/-- The call that ended the loop, with its error. -/
inductive Ending (ε : Type)
  | source (err : ε)
  | destination (err : ε)

structure Relay (ε : Type) where
  -- What the source has returned.
  delivered : List UInt8
  -- What the destination has taken.
  accepted : List UInt8
  -- The counts passed to the reporter.
  reported : List Nat
  ended : Option (Ending ε)

namespace Relay

def start : Relay ε := ⟨[], [], [], none⟩

/-- One round of the loop. -/
def round (src : Reader ε) (dst : Writer ε) (k : Nat) (s : Relay ε) : Relay ε :=
  let (bytes, err) := src.read k 4096
  let s := { s with delivered := s.delivered ++ bytes }
  match err with
  | some err => { s with ended := some (.source err) }
  | none =>
      let (n, err) := dst.write k bytes
      let s := { s with accepted := s.accepted ++ bytes.take n }
      match err with
      | some err => { s with ended := some (.destination err) }
      | none => { s with reported := s.reported ++ [n] }

/-- `doPairedForward` after that many rounds. -/
def doPairedForward (src : Reader ε) (dst : Writer ε) : Nat → Relay ε
  | 0 => start
  | k + 1 =>
      let s := doPairedForward src dst k
      match s.ended with
      | some _ => s
      | none => s.round src dst k

variable {src : Reader ε} {dst : Writer ε} {k : Nat} {s : Relay ε}

/-- The bytes that the read of the round returns. -/
def chunk (src : Reader ε) (k : Nat) : List UInt8 := (src.read k 4096).1

/-- Neither call of the round returns an error. -/
def Passes (src : Reader ε) (dst : Writer ε) (k : Nat) : Prop :=
  (src.read k 4096).2 = none ∧ (dst.write k (chunk src k)).2 = none

/-- The loop comes to the round. -/
def Comes (src : Reader ε) (dst : Writer ε) (k : Nat) : Prop := ∀ j < k, Passes src dst j

/-- Nothing is lost or uncounted. -/
structure Intact (s : Relay ε) : Prop where
  accepted : s.accepted = s.delivered
  reported : s.reported.sum = s.accepted.length

theorem round_source {err : ε} (h : (src.read k 4096).2 = some err) :
    s.round src dst k =
      { s with delivered := s.delivered ++ chunk src k, ended := some (.source err) } := by
  simp only [round, h, chunk]

theorem round_destination {err : ε} (h : (src.read k 4096).2 = none)
    (herr : (dst.write k (chunk src k)).2 = some err) :
    s.round src dst k = { s with
      delivered := s.delivered ++ chunk src k
      accepted := s.accepted ++ (chunk src k).take (dst.write k (chunk src k)).1
      ended := some (.destination err) } := by
  rw [chunk] at herr
  simp only [round, h, chunk, herr]

/-- A round without errors writes and reports all it has read. -/
theorem round_passes (h : Passes src dst k) :
    s.round src dst k = { s with
      delivered := s.delivered ++ chunk src k
      accepted := s.accepted ++ chunk src k
      reported := s.reported ++ [(chunk src k).length] } := by
  obtain ⟨hread, hwrite⟩ := h
  have hall := Writer.length_of_ok hwrite
  rw [chunk] at hwrite hall
  simp only [round, hread, chunk, hwrite, hall, List.take_length]

theorem Intact.round_passes (h : s.Intact) (hpass : Passes src dst k) :
    (s.round src dst k).Intact := by
  rw [Relay.round_passes hpass]
  constructor
  · exact congrArg (· ++ _) h.accepted
  · rw [List.sum_append, List.length_append, h.reported, List.sum_singleton]

theorem forward_of_comes (h : Comes src dst k) :
    (doPairedForward src dst k).ended = none ∧ (doPairedForward src dst k).Intact := by
  induction k with
  | zero => exact ⟨rfl, rfl, rfl⟩
  | succ k ih =>
      have hpass := h k (Nat.lt_succ_self k)
      obtain ⟨hended, hintact⟩ := ih fun j hj ↦ h j (Nat.lt_succ_of_lt hj)
      rw [doPairedForward, hended]
      refine ⟨?_, hintact.round_passes hpass⟩
      rw [Relay.round_passes hpass]
      exact hended

theorem forward_succ (h : Comes src dst k) :
    doPairedForward src dst (k + 1) = (doPairedForward src dst k).round src dst k := by
  rw [doPairedForward, (forward_of_comes h).1]

theorem error_of_not_passes (h : ¬ Passes src dst k) :
    (∃ err, (src.read k 4096).2 = some err) ∨
      (src.read k 4096).2 = none ∧ ∃ err, (dst.write k (chunk src k)).2 = some err := by
  cases hread : (src.read k 4096).2 with
  | some err => exact .inl ⟨err, rfl⟩
  | none => exact .inr ⟨rfl, Option.ne_none_iff_exists'.mp fun hwrite ↦ h ⟨hread, hwrite⟩⟩

theorem round_ended (h : ¬ Passes src dst k) : ∃ ending, (s.round src dst k).ended = some ending := by
  rcases error_of_not_passes h with ⟨err, hread⟩ | ⟨hread, err, hwrite⟩
  · exact ⟨_, by rw [round_source hread]⟩
  · exact ⟨_, by rw [round_destination hread hwrite]⟩

/-- The round that ends the loop, where it reads or writes nothing. -/
theorem Intact.round_ended (h : s.Intact) (hpass : ¬ Passes src dst k)
    (hempty : (src.read k 4096).2 ≠ none → chunk src k = [])
    (hzero : (src.read k 4096).2 = none → (dst.write k (chunk src k)).2 ≠ none →
      (dst.write k (chunk src k)).1 = 0) :
    (s.round src dst k).reported.sum = (s.round src dst k).accepted.length ∧
      ∀ err, (s.round src dst k).ended = some (.source err) →
        (s.round src dst k).accepted = (s.round src dst k).delivered := by
  rcases error_of_not_passes hpass with ⟨err, hread⟩ | ⟨hread, err, hwrite⟩
  · rw [round_source hread, hempty (hread ▸ Option.some_ne_none err), List.append_nil]
    exact ⟨h.reported, fun _ _ ↦ h.accepted⟩
  · rw [round_destination hread hwrite, hzero hread (hwrite ▸ Option.some_ne_none err),
      List.take_zero, List.append_nil]
    exact ⟨h.reported, nofun⟩

/-- The loop is still going, or it has ended in a round that does not pass. -/
theorem forward_cases (src : Reader ε) (dst : Writer ε) (n : Nat) :
    Comes src dst n ∨ ∃ k < n, Comes src dst k ∧ ¬ Passes src dst k ∧
      doPairedForward src dst n = (doPairedForward src dst k).round src dst k := by
  induction n with
  | zero => exact .inl nofun
  | succ n ih =>
      rcases ih with hcomes | ⟨k, hk, hcomes, hpass, hlast⟩
      · by_cases hpass : Passes src dst n
        · refine .inl fun j hj ↦ ?_
          rcases Nat.lt_succ_iff_lt_or_eq.mp hj with hj | rfl
          · exact hcomes j hj
          · exact hpass
        · exact .inr ⟨n, Nat.lt_succ_self n, hcomes, hpass, forward_succ hcomes⟩
      · obtain ⟨ending, hended⟩ := round_ended hpass
        refine .inr ⟨k, Nat.lt_succ_of_lt hk, hcomes, hpass, ?_⟩
        rw [doPairedForward, hlast, hended]

/-- Nothing is lost when the source ends the loop, and all that the destination takes is counted. -/
def Lossless (src : Reader ε) (dst : Writer ε) : Prop :=
  (∀ n err, (doPairedForward src dst n).ended = some (.source err) →
    (doPairedForward src dst n).accepted = (doPairedForward src dst n).delivered) ∧
  ∀ n, (doPairedForward src dst n).reported.sum = (doPairedForward src dst n).accepted.length

/-- `doPairedForward` relays without loss exactly if the read that ends it returns no bytes and the
write that ends it takes none. -/
theorem lossless_iff (src : Reader ε) (dst : Writer ε) :
    Lossless src dst ↔ ∀ k, Comes src dst k →
      ((src.read k 4096).2 ≠ none → chunk src k = []) ∧
      ((src.read k 4096).2 = none → (dst.write k (chunk src k)).2 ≠ none →
        (dst.write k (chunk src k)).1 = 0) := by
  constructor
  · rintro ⟨hlossless, hcounted⟩ k hcomes
    obtain ⟨-, hintact⟩ := forward_of_comes hcomes
    have hnext := forward_succ hcomes
    constructor
    · intro hread
      obtain ⟨err, hread⟩ := Option.ne_none_iff_exists'.mp hread
      have hall := hlossless (k + 1) err
      rw [hnext, round_source hread] at hall
      have hall := hall rfl
      dsimp only at hall
      rw [hintact.accepted] at hall
      exact List.self_eq_append_right.mp hall
    · intro hread hwrite
      obtain ⟨err, hwrite⟩ := Option.ne_none_iff_exists'.mp hwrite
      have hsum := hcounted (k + 1)
      rw [hnext, round_destination hread hwrite] at hsum
      dsimp only at hsum
      rw [hintact.reported, List.length_append, List.length_take,
        Nat.min_eq_left (dst.fits k _)] at hsum
      omega
  · intro hclean
    have hall : ∀ n, (doPairedForward src dst n).reported.sum =
        (doPairedForward src dst n).accepted.length ∧
        ∀ err, (doPairedForward src dst n).ended = some (.source err) →
          (doPairedForward src dst n).accepted = (doPairedForward src dst n).delivered := by
      intro n
      rcases forward_cases src dst n with hcomes | ⟨k, -, hcomes, hpass, hlast⟩
      · obtain ⟨-, hintact⟩ := forward_of_comes hcomes
        exact ⟨hintact.reported, fun _ _ ↦ hintact.accepted⟩
      · obtain ⟨-, hintact⟩ := forward_of_comes hcomes
        obtain ⟨hempty, hzero⟩ := hclean k hcomes
        rw [hlast]
        exact hintact.round_ended hpass hempty hzero
    exact ⟨fun n ↦ (hall n).2, fun n ↦ (hall n).1⟩

/-- A byte that comes with the end of the source is not written, and a byte that a failing write has
taken is not reported. -/
theorem tail_lost :
    (∃ (src : Reader Unit) (dst : Writer Unit), src.read 0 4096 = ([7], some ()) ∧
      (doPairedForward src dst 1).ended = some (.source ()) ∧
      (doPairedForward src dst 1).delivered = [7] ∧ (doPairedForward src dst 1).accepted = [] ∧
      ¬ Lossless src dst) ∧
    ∃ (src : Reader Unit) (dst : Writer Unit), dst.write 0 [7, 8] = (1, some ()) ∧
      (doPairedForward src dst 1).accepted = [7] ∧ (doPairedForward src dst 1).reported = [] ∧
      ¬ Lossless src dst := by
  constructor
  · refine ⟨⟨fun _ len ↦ ([7].take len, some ()), fun _ len ↦ List.length_take_le ..⟩,
      ⟨fun _ bytes ↦ (bytes.length, none), fun _ _ ↦ Nat.le_refl _,
        fun _ _ h ↦ absurd h (Nat.lt_irrefl _)⟩,
      rfl, rfl, rfl, rfl, fun h ↦ ?_⟩
    exact absurd (h.1 1 () rfl) (by decide)
  · refine ⟨⟨fun _ len ↦ ([7, 8].take len, none), fun _ len ↦ List.length_take_le ..⟩,
      ⟨fun _ bytes ↦ (bytes.length / 2, some ()), fun _ _ ↦ Nat.div_le_self _ _,
        fun _ _ _ ↦ Option.some_ne_none ()⟩,
      rfl, rfl, rfl, fun h ↦ ?_⟩
    exact absurd (h.2 1) (by decide)

end Relay

end CommonLib.XProxy
