import CommonLib.XNet.IP

/-! The usable range of an IPv4 subnet, for every mask `IPMask.Size` reports as at most 30. -/

namespace CommonLib.XNet

open CommonLib.Reasoning

/-- A subnet of IPv4: its address has a `To4` form and its mask has four bytes. -/
def IPNet.IsIPv4 (net : IPNet) : Prop := net.ip.isv4 = true ∧ net.mask.bytes.length = 4

theorem IPMask.toUint32_four {mask : IPMask} (h : mask.bytes.length = 4) :
    ∃ q : Quad, mask.bytes = [q.a, q.b, q.c, q.d] ∧ mask.toUint32 = .ok q.toUint32 := by
  obtain ⟨bytes⟩ := mask
  match bytes, h with
  | [a, b, c, d], _ => exact ⟨⟨a, b, c, d⟩, rfl, rfl⟩

/-- A mask of four bytes with at most 30 ones has at least two host bits: the masks with fewer are
`/31` and `/32`. -/
theorem IPMask.hostBits_of_size {mask : IPMask} {m : UInt32} (hlen : mask.bytes.length = 4)
    (hm : mask.toUint32 = .ok m) (hsize : mask.size.1 ≤ 30) : 2 ≤ 2 ^ 32 - 1 - m.toNat := by
  obtain ⟨q, hb, hq⟩ := IPMask.toUint32_four hlen
  have hmq : m = q.toUint32 := by
    rw [hq] at hm
    exact (Except.ok.inj hm).symm
  by_contra hfew
  have hlt := m.toNat_lt
  have hcases : m = 0xFFFFFFFF ∨ m = 0xFFFFFFFE := by
    simp only [← UInt32.toNat_inj, UInt32.reduceToNat]
    omega
  rcases hcases with h | h
  · have hbytes : q = ⟨255, 255, 255, 255⟩ := Quad.toUint32_injective (by rw [← hmq, h]; decide)
    rw [IPMask.size, hb, hbytes] at hsize
    exact absurd hsize (by decide)
  · have hbytes : q = ⟨255, 255, 255, 254⟩ := Quad.toUint32_injective (by rw [← hmq, h]; decide)
    rw [IPMask.size, hb, hbytes] at hsize
    exact absurd hsize (by decide)

theorem xor_ones (mask : UInt32) : mask ^^^ 0xFFFFFFFF = ~~~mask := by
  apply UInt32.toBitVec_inj.mp
  simp only [UInt32.toBitVec_xor, UInt32.toBitVec_not]
  exact BitVec.xor_allOnes

/-- The network bits and the host bits do not overlap, so setting all host bits adds them. -/
theorem broadcast_toNat (ip mask : UInt32) :
    (ip &&& mask ||| mask ^^^ 0xFFFFFFFF).toNat = (ip &&& mask).toNat + (2 ^ 32 - 1 - mask.toNat) := by
  have hdisj : (ip &&& mask).toBitVec &&& (~~~mask).toBitVec = 0#32 := by
    apply BitVec.eq_of_getLsbD_eq
    intro i hi
    simp [hi]
  have hsum := BitVec.add_eq_or_of_and_eq_zero _ _ hdisj
  rw [xor_ones]
  have hor : (ip &&& mask ||| ~~~mask) = (ip &&& mask) + ~~~mask := by
    apply UInt32.toBitVec_inj.mp
    simp only [UInt32.toBitVec_or, UInt32.toBitVec_add]
    exact hsum.symm
  have hmask := mask.toNat_lt
  have hle : (ip &&& mask).toNat ≤ mask.toNat := by
    rw [UInt32.toNat_and]
    exact Nat.and_le_right
  rw [hor, UInt32.toNat_add, UInt32.toNat_not, UInt32.size, Nat.mod_eq_of_lt (by omega)]
  omega

theorem broadcast_lastByte_ge (ip mask : UInt32) :
    (ip &&& mask).toNat % 256 ≤ (ip &&& mask ||| mask ^^^ 0xFFFFFFFF).toNat % 256 := by
  rw [UInt32.toNat_or, show 256 = 2 ^ 8 from rfl, Nat.or_mod_two_pow]
  exact Nat.left_le_or

/-- Changing the last byte of an address changes its number within a block of 256. -/
theorem uint32ToQuad_withLast_toNat (n : UInt32) (d : UInt8) :
    (Quad.toUint32 { uint32ToQuad n with d := d }).toNat = n.toNat - n.toNat % 256 + d.toNat := by
  obtain ⟨ha, hb, hc, -⟩ := uint32ToQuad_toNat n
  rw [Quad.toUint32_toNat]
  dsimp only
  rw [ha, hb, hc]
  have hn := n.toNat_lt
  omega

/-- The first and last usable addresses of a subnet with at least two host bits are in order, and
the range they span is shorter than the whole address space: when the last byte carries at one end
it does not borrow at the other. -/
theorem IPNet.usable_range {net : IPNet} (h4 : net.IsIPv4) (hsize : net.mask.size.1 ≤ 30) :
    ∃ lo hi : Quad, net.firstUsable = .ok lo ∧ net.lastUsable = .ok hi ∧
      lo.toUint32.toNat ≤ hi.toUint32.toNat ∧
      hi.toUint32.toNat - lo.toUint32.toNat + 1 < 2 ^ 32 := by
  obtain ⟨ip, hip⟩ := (IP.isv4_iff net.ip).mp h4.1
  obtain ⟨q, -, hq⟩ := IPMask.toUint32_four h4.2
  have hhost := IPMask.hostBits_of_size h4.2 hq hsize
  let n := ip &&& q.toUint32
  let b := n ||| q.toUint32 ^^^ 0xFFFFFFFF
  have hb : b.toNat = n.toNat + (2 ^ 32 - 1 - q.toUint32.toNat) := broadcast_toNat ip q.toUint32
  have hlast : n.toNat % 256 ≤ b.toNat % 256 := broadcast_lastByte_ge ip q.toUint32
  refine ⟨{ uint32ToQuad n with d := (uint32ToQuad n).d + 1 },
    { uint32ToQuad b with d := (uint32ToQuad b).d - 1 }, ?_, ?_, ?_⟩
  · simp [IPNet.firstUsable, IPNet.networkAddr, hip, hq, hsize, n, bind, Except.bind, pure,
      Except.pure]
  · simp [IPNet.lastUsable, IPNet.broadcastAddr, hip, hq, hsize, n, b, bind, Except.bind, pure,
      Except.pure]
  · have hnd := (uint32ToQuad_toNat n).2.2.2
    have hbd := (uint32ToQuad_toNat b).2.2.2
    have hnlt := n.toNat_lt
    have hblt := b.toNat_lt
    have hinc : ((uint32ToQuad n).d + 1).toNat = (n.toNat % 256 + 1) % 256 := by
      rw [UInt8.toNat_add, hnd]
      rfl
    have hdec : ((uint32ToQuad b).d - 1).toNat = (b.toNat % 256 + 255) % 256 := by
      rw [UInt8.toNat_sub, hbd]
      simp only [UInt8.reduceToNat]
      omega
    rw [uint32ToQuad_withLast_toNat, uint32ToQuad_withLast_toNat, hinc, hdec]
    omega

/-! ## Prefixes -/

/-- A subnet of IPv4 with the prefix length `p`. -/
structure IPNet.HasPrefix (net : IPNet) (p : Nat) : Prop where
  isv4 : net.ip.isv4 = true
  size : net.mask.size = (p, 32)

/-- The number that bytes spell, the first one highest. -/
def bigEndian : List UInt8 → Nat
  | [] => 0
  | b :: bytes => b.toNat * 256 ^ bytes.length + bigEndian bytes

theorem leadingOnes_toNat (v : UInt8) (h : (leadingOnes 8 v).2 = 0) :
    (leadingOnes 8 v).1 ≤ 8 ∧ v.toNat + 2 ^ (8 - (leadingOnes 8 v).1) = 256 := by
  have hall : ∀ i : Fin 256, (leadingOnes 8 (.ofNat i)).2 = 0 →
      (leadingOnes 8 (.ofNat i)).1 ≤ 8 ∧ i.val + 2 ^ (8 - (leadingOnes 8 (.ofNat i)).1) = 256 := by
    decide +kernel
  have hv := hall ⟨v.toNat, v.toNat_lt⟩
  rw [UInt8.ofNat_toNat] at hv
  exact hv h

theorem bigEndian_zeros {bytes : List UInt8} (h : bytes.all (· == 0) = true) :
    bigEndian bytes = 0 := by
  induction bytes with
  | nil => rfl
  | cons b bytes ih =>
      rw [List.all_cons, Bool.and_eq_true, beq_iff_eq] at h
      rw [bigEndian, h.1, ih h.2]
      simp

/-- A mask of `n` ones is short of all ones by the host bits. -/
theorem bigEndian_mask {bytes : List UInt8} {n : Nat} (h : simpleMaskLength bytes = some n) :
    n ≤ 8 * bytes.length ∧ bigEndian bytes + 2 ^ (8 * bytes.length - n) = 256 ^ bytes.length := by
  induction bytes generalizing n with
  | nil =>
      cases h
      exact ⟨le_rfl, rfl⟩
  | cons v bytes ih =>
      rw [simpleMaskLength] at h
      rw [List.length_cons, bigEndian, pow_succ]
      by_cases hv : v = 0xff
      · rw [if_pos hv] at h
        obtain ⟨n', hn', rfl⟩ := Option.map_eq_some_iff.mp h
        obtain ⟨hle, hsum⟩ := ih hn'
        rw [hv, Nat.mul_succ, Nat.add_sub_add_right]
        simp only [UInt8.reduceToNat]
        omega
      · rw [if_neg hv] at h
        dsimp only at h
        split at h
        · rename_i hrest
          cases h
          obtain ⟨hle, hsum⟩ := leadingOnes_toNat v hrest.1
          have hexp : 8 * (bytes.length + 1) - (leadingOnes 8 v).1 =
              8 - (leadingOnes 8 v).1 + 8 * bytes.length := by omega
          refine ⟨by omega, ?_⟩
          rw [bigEndian_zeros hrest.2, hexp, pow_add, pow_mul, Nat.add_zero,
            show (2 ^ 8 : Nat) = 256 from rfl, ← Nat.add_mul, hsum, Nat.mul_comm]
        · cases h

theorem IPNet.HasPrefix.isIPv4 {net : IPNet} {p : Nat} (h : net.HasPrefix p) : net.IsIPv4 := by
  refine ⟨h.isv4, ?_⟩
  have hsize := h.size
  unfold IPMask.size at hsize
  split at hsize
  · have hbits := (Prod.mk.inj hsize).2
    omega
  · cases hsize

theorem IPNet.HasPrefix.mask_toNat {net : IPNet} {p : Nat} (h : net.HasPrefix p) :
    p ≤ 32 ∧ ∃ m, net.mask.toUint32 = .ok m ∧ m.toNat + 2 ^ (32 - p) = 2 ^ 32 := by
  obtain ⟨q, hbytes, hq⟩ := IPMask.toUint32_four h.isIPv4.2
  have hsize := h.size
  unfold IPMask.size at hsize
  split at hsize
  · rename_i ones hones
    obtain ⟨rfl, -⟩ := Prod.mk.inj hsize
    obtain ⟨hle, hsum⟩ := bigEndian_mask hones
    rw [hbytes] at hle hsum
    norm_num [bigEndian] at hle hsum
    refine ⟨hle, _, hq, ?_⟩
    rw [Quad.toUint32_toNat]
    norm_num [Nat.add_assoc]
    linarith only [hsum]
  · cases hsize

/-- The network address is the address with its host bits cleared. -/
theorem and_mask_toNat {ip m : UInt32} {k : Nat} (hm : m.toNat + 2 ^ k = 2 ^ 32) :
    (ip &&& m).toNat = ip.toNat / 2 ^ k * 2 ^ k := by
  have hk : k ≤ 32 := by
    by_contra hk
    have hlt : 2 ^ 32 < 2 ^ k := Nat.pow_lt_pow_right (by decide) (by omega)
    omega
  obtain ⟨j, hj⟩ := Nat.pow_dvd_pow 2 hk
  have hdvd : m.toNat % 2 ^ k = 0 := by
    have hmj : m.toNat = 2 ^ k * (j - 1) := by
      rw [Nat.mul_sub, ← hj]
      omega
    rw [hmj, Nat.mul_mod_right]
  have hmod : (ip &&& m).toNat % 2 ^ k = 0 := by
    rw [UInt32.toNat_and, Nat.and_mod_two_pow, hdvd, Nat.and_zero]
  have hle : (ip &&& m).toNat ≤ ip.toNat := by
    rw [UInt32.toNat_and]
    exact Nat.and_le_left
  -- the address lies between the network address and the broadcast address
  have hge : ip.toNat ≤ (ip &&& m ||| m ^^^ 0xFFFFFFFF).toNat := by
    have hor : ip &&& m ||| ~~~m = ip ||| ~~~m := by
      apply UInt32.toBitVec_inj.mp
      apply BitVec.eq_of_getLsbD_eq
      intro i hi
      simp only [UInt32.toBitVec_or, UInt32.toBitVec_and, UInt32.toBitVec_not, BitVec.getLsbD_or,
        BitVec.getLsbD_and, BitVec.getLsbD_not, hi, decide_true, Bool.true_and]
      cases ip.toBitVec.getLsbD i <;> cases m.toBitVec.getLsbD i <;> rfl
    rw [xor_ones, hor, UInt32.toNat_or]
    exact Nat.left_le_or
  rw [broadcast_toNat] at hge
  have hpos : 0 < 2 ^ k := Nat.two_pow_pos k
  have hdiv : ip.toNat / 2 ^ k = (ip &&& m).toNat / 2 ^ k := by
    have hnet := Nat.div_add_mod (ip &&& m).toNat (2 ^ k)
    apply Nat.div_eq_of_lt_le
    · rw [Nat.mul_comm]
      omega
    · rw [Nat.succ_mul, Nat.mul_comm]
      omega
  rw [hdiv]
  have hnet := Nat.div_add_mod (ip &&& m).toNat (2 ^ k)
  rw [Nat.mul_comm]
  omega

/-- Up to `/30` the usable range begins one after the network address and ends one before the
broadcast address: the last byte neither carries nor borrows. -/
theorem IPNet.HasPrefix.usable {net : IPNet} {p : Nat} (h : net.HasPrefix p) (hp : p ≤ 30) :
    ∃ ip network broadcast lo hi, net.ip.toUint32 = .ok ip ∧
      net.networkAddr = .ok network ∧ net.broadcastAddr = .ok broadcast ∧
      net.firstUsable = .ok lo ∧ net.lastUsable = .ok hi ∧
      network.toUint32.toNat = ip.toNat / 2 ^ (32 - p) * 2 ^ (32 - p) ∧
      broadcast.toUint32.toNat = network.toUint32.toNat + 2 ^ (32 - p) - 1 ∧
      network.d.toNat + 1 < 256 ∧ 1 ≤ broadcast.d.toNat ∧
      lo.toUint32.toNat = network.toUint32.toNat + 1 ∧
      hi.toUint32.toNat = broadcast.toUint32.toNat - 1 := by
  obtain ⟨ip, hip⟩ := (IP.isv4_iff net.ip).mp h.isv4
  obtain ⟨-, m, hm, hsum⟩ := h.mask_toNat
  have hsize : net.mask.size.1 ≤ 30 := by
    rw [h.size]
    exact hp
  let n := ip &&& m
  let b := n ||| m ^^^ 0xFFFFFFFF
  have hn : n.toNat = ip.toNat / 2 ^ (32 - p) * 2 ^ (32 - p) := and_mask_toNat hsum
  have hb : b.toNat = n.toNat + 2 ^ (32 - p) - 1 := by
    have hbroadcast : b.toNat = n.toNat + (2 ^ 32 - 1 - m.toNat) := broadcast_toNat ip m
    have hlt := m.toNat_lt
    omega
  -- at least two host bits, so the network address is divisible by four
  have hdvd : 2 ^ 2 ∣ 2 ^ (32 - p) := Nat.pow_dvd_pow 2 (by omega)
  have hfour : n.toNat % 4 = 0 := by
    rw [hn]
    exact Nat.mod_eq_zero_of_dvd (hdvd.trans (Nat.dvd_mul_left ..))
  have hhost : 2 ^ (32 - p) % 4 = 0 := Nat.mod_eq_zero_of_dvd hdvd
  have hnd := (uint32ToQuad_toNat n).2.2.2
  have hbd := (uint32ToQuad_toNat b).2.2.2
  have hpos : 0 < 2 ^ (32 - p) := Nat.two_pow_pos _
  refine ⟨ip, uint32ToQuad n, uint32ToQuad b, { uint32ToQuad n with d := (uint32ToQuad n).d + 1 },
    { uint32ToQuad b with d := (uint32ToQuad b).d - 1 }, hip, ?_, ?_, ?_, ?_, ?_, ?_, ?_, ?_, ?_, ?_⟩
  · simp [IPNet.networkAddr, hip, hm, n, bind, Except.bind, pure, Except.pure]
  · simp [IPNet.broadcastAddr, hip, hm, n, b, bind, Except.bind, pure, Except.pure]
  · simp [IPNet.firstUsable, IPNet.networkAddr, hip, hm, hsize, n, bind, Except.bind, pure,
      Except.pure]
  · simp [IPNet.lastUsable, IPNet.broadcastAddr, hip, hm, hsize, n, b, bind, Except.bind, pure,
      Except.pure]
  · rw [uint32ToQuad_toUint32, hn]
  · rw [uint32ToQuad_toUint32, uint32ToQuad_toUint32, hb]
  · omega
  · omega
  · rw [uint32ToQuad_withLast_toNat, uint32ToQuad_toUint32, UInt8.toNat_add, hnd]
    simp only [UInt8.reduceToNat]
    omega
  · rw [uint32ToQuad_withLast_toNat, uint32ToQuad_toUint32, UInt8.toNat_sub, hbd]
    simp only [UInt8.reduceToNat]
    omega

end CommonLib.XNet
