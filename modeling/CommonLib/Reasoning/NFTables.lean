import Mathlib

/-!
# Packet filter rules

The expressions of an nftables rule and what the kernel does with them: a load into a register, a
comparison or a set lookup that ends the rule when it fails, and a verdict.  An interval set is
given by the sequence of its start and end keys.
-/

namespace CommonLib.Reasoning.NFTables

structure Packet where
  network : List UInt8
  l4proto : UInt8
  transport : List UInt8

inductive Base
  | networkHeader
  | transportHeader
deriving DecidableEq, Repr

inductive Verdict
  | accept
  | drop
deriving DecidableEq, Repr

structure SetElement where
  key : List UInt8
  intervalEnd : Bool
deriving DecidableEq, Repr

inductive Expr
  | loadL4Proto (register : Nat)
  | payload (destRegister : Nat) (base : Base) (offset len : Nat)
  | cmpEq (register : Nat) (data : List UInt8)
  | lookup (sourceRegister : Nat) (set : List SetElement)
  | counter
  | verdict (kind : Verdict)
deriving DecidableEq, Repr

structure Rule where
  userData : List UInt8
  exprs : List Expr
deriving DecidableEq, Repr

def Packet.header (pkt : Packet) : Base → List UInt8
  | .networkHeader => pkt.network
  | .transportHeader => pkt.transport

/-- The number a big-endian key stands for. -/
def keyValue (key : List UInt8) : Nat := key.foldl (fun n b ↦ 256 * n + b.toNat) 0

/-- Some start key at or below the value is followed by an end key above it. -/
def inInterval (value : Nat) : List SetElement → Bool
  | s :: e :: rest =>
      (!s.intervalEnd && e.intervalEnd && decide (keyValue s.key ≤ value) &&
        decide (value < keyValue e.key)) || inInterval value (e :: rest)
  | _ => false

/-- A rule's expressions in order; `none` when one of them does not match, or none is a verdict. -/
def runExprs (pkt : Packet) : List Expr → (Nat → List UInt8) → Option Verdict
  | [], _ => none
  | .loadL4Proto r :: es, regs => runExprs pkt es (Function.update regs r [pkt.l4proto])
  | .payload r base offset len :: es, regs =>
      if offset + len ≤ (pkt.header base).length then
        runExprs pkt es (Function.update regs r (((pkt.header base).drop offset).take len))
      else none
  | .cmpEq r data :: es, regs =>
      if (regs r).take data.length = data then runExprs pkt es regs else none
  | .lookup r set :: es, regs =>
      if inInterval (keyValue (regs r)) set then runExprs pkt es regs else none
  | .counter :: es, regs => runExprs pkt es regs
  | .verdict v :: _, _ => some v

def Rule.run (rule : Rule) (pkt : Packet) : Option Verdict :=
  runExprs pkt rule.exprs fun _ ↦ []

/-- The first rule with a verdict decides; without one the packet is accepted. -/
def chainVerdict (rules : List Rule) (pkt : Packet) : Verdict :=
  (rules.findSome? (·.run pkt)).getD .accept

/-! ## Rules without a verdict -/

theorem findSome?_run_eq_none {rules : List Rule} {pkt : Packet}
    (h : ∀ rule ∈ rules, rule.run pkt = none) : rules.findSome? (·.run pkt) = none :=
  List.findSome?_eq_none_iff.mpr h

theorem chainVerdict_append_left {rules others : List Rule} {pkt : Packet}
    (h : ∀ rule ∈ others, rule.run pkt = none) :
    chainVerdict (rules ++ others) pkt = chainVerdict rules pkt := by
  unfold chainVerdict
  rw [List.findSome?_append, findSome?_run_eq_none h, Option.or_none]

theorem chainVerdict_append_right {rules others : List Rule} {pkt : Packet}
    (h : ∀ rule ∈ others, rule.run pkt = none) :
    chainVerdict (others ++ rules) pkt = chainVerdict rules pkt := by
  unfold chainVerdict
  rw [List.findSome?_append, findSome?_run_eq_none h, Option.none_or]

/-! ## Loads followed by a test -/

theorem runExprs_payload_cmpEq (pkt : Packet) {r : Nat} {base : Base} {offset len : Nat}
    {data : List UInt8} {es : List Expr} {regs : Nat → List UInt8}
    (hlen : offset + len ≤ (pkt.header base).length) :
    runExprs pkt (.payload r base offset len :: .cmpEq r data :: es) regs =
      if (((pkt.header base).drop offset).take len).take data.length = data then
        runExprs pkt es (Function.update regs r (((pkt.header base).drop offset).take len))
      else none := by
  rw [runExprs, if_pos hlen, runExprs, Function.update_self]

theorem inInterval_pairs (value : Nat) (pairs : List (List UInt8 × List UInt8)) :
    inInterval value (pairs.flatMap fun p ↦ [⟨p.1, false⟩, ⟨p.2, true⟩]) = true ↔
      ∃ p ∈ pairs, keyValue p.1 ≤ value ∧ value < keyValue p.2 := by
  induction pairs with
  | nil => simp [inInterval]
  | cons p pairs ih =>
      -- An end key followed by the next start key is no interval.
      have hskip : inInterval value (⟨p.2, true⟩ ::
          pairs.flatMap fun p ↦ [⟨p.1, false⟩, ⟨p.2, true⟩]) =
          inInterval value (pairs.flatMap fun p ↦ [⟨p.1, false⟩, ⟨p.2, true⟩]) := by
        cases pairs with
        | nil => rfl
        | cons q pairs => simp [inInterval]
      rw [List.flatMap_cons, List.cons_append, List.cons_append, List.nil_append, inInterval, hskip,
        Bool.or_eq_true, ih, List.exists_mem_cons_iff]
      simp

end CommonLib.Reasoning.NFTables
