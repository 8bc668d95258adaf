import CommonLib.XNet.Subnet

/-!
# Private networks

`IsPrivateIPNet` looks at one address of the network and compares prefix lengths.  A shorter prefix
than that of a private block reaches over the block's end, and no two of the blocks are neighbours.
The ones of a mask of 16 bytes are counted from its first byte, which is 96 too many.
-/

namespace CommonLib.XNet

open CommonLib.Reasoning

/-- `net.networkNumberAndMask`; the nil slices have no bytes. -/
def IPNet.networkNumberAndMask (n : IPNet) : List UInt8 × List UInt8 :=
  let ip := (n.ip.to4.map Quad.bytes).getD n.ip.bytes
  if n.ip.to4 = none ∧ ip.length ≠ 16 then ([], [])
  else
    match n.mask.bytes.length with
    | 4 => if ip.length ≠ 4 then ([], []) else (ip, n.mask.bytes)
    | 16 => (ip, if ip.length = 4 then n.mask.bytes.drop 12 else n.mask.bytes)
    | _ => ([], [])

/-- `net.IPNet.Contains`. -/
def IPNet.contains (n : IPNet) (ip : IP) : Bool :=
  let (nn, m) := n.networkNumberAndMask
  let ip := (ip.to4.map Quad.bytes).getD ip.bytes
  ip.length = nn.length ∧ List.zipWith (· &&& ·) nn m = List.zipWith (· &&& ·) ip m

def privateBlocks : List IPNet :=
  [⟨⟨[10, 0, 0, 0]⟩, ⟨[255, 0, 0, 0]⟩⟩, ⟨⟨[172, 16, 0, 0]⟩, ⟨[255, 240, 0, 0]⟩⟩,
    ⟨⟨[192, 168, 0, 0]⟩, ⟨[255, 255, 0, 0]⟩⟩]

def isPrivateIPNet (ipn : IPNet) : Bool :=
  privateBlocks.any fun block ↦
    let (bits, _) := block.mask.size
    let (givenBits, _) := ipn.mask.size
    block.contains ipn.ip && decide (givenBits ≥ bits)

/-! ## The addresses of a network -/

def Quad.and (p q : Quad) : Quad := ⟨p.a &&& q.a, p.b &&& q.b, p.c &&& q.c, p.d &&& q.d⟩

theorem uint32ToQuad_and (m n : UInt32) :
    uint32ToQuad (m &&& n) = (uint32ToQuad m).and (uint32ToQuad n) := by
  obtain ⟨ha, hb, hc, hd⟩ := uint32ToQuad_toNat (m &&& n)
  obtain ⟨hma, hmb, hmc, hmd⟩ := uint32ToQuad_toNat m
  obtain ⟨hna, hnb, hnc, hnd⟩ := uint32ToQuad_toNat n
  rw [UInt32.toNat_and] at ha hb hc hd
  generalize uint32ToQuad (m &&& n) = r at ha hb hc hd ⊢
  obtain ⟨a, b, c, d⟩ := r
  dsimp only at ha hb hc hd
  simp only [Quad.and, Quad.mk.injEq, ← UInt8.toNat_inj, UInt8.toNat_and]
  rw [ha, hb, hc, hd, hma, hmb, hmc, hmd, hna, hnb, hnc, hnd, show 256 = 2 ^ 8 from rfl]
  simp only [Nat.and_div_two_pow, Nat.and_mod_two_pow, and_self]

theorem uint32ToQuad_ofQuad (q : Quad) : uint32ToQuad q.toUint32 = q :=
  Quad.toUint32_injective (uint32ToQuad_toUint32 _)

theorem Quad.and_toUint32 (p q : Quad) : (p.and q).toUint32 = p.toUint32 &&& q.toUint32 := by
  have hand := uint32ToQuad_and p.toUint32 q.toUint32
  rw [uint32ToQuad_ofQuad, uint32ToQuad_ofQuad] at hand
  rw [← hand, uint32ToQuad_toUint32]

theorem IP.length_of_to4_none {ip : IP} (h : ip.to4 = none) : ip.bytes.length ≠ 4 := by
  intro hlen
  obtain ⟨bytes⟩ := ip
  match bytes, hlen with
  | [a, b, c, d], _ => simp [to4, quadOfBytes] at h

/-- A network of IPv4 contains the addresses that agree with it in the bits of the mask. -/
theorem IPNet.contains_iff {net : IPNet} {b m : Quad} (hip : net.ip.to4 = some b)
    (hmask : net.mask.bytes = m.bytes) (ip : IP) :
    net.contains ip = true ↔ ∃ a, ip.to4 = some a ∧ b.and m = a.and m := by
  have hnet : net.networkNumberAndMask = (b.bytes, m.bytes) := by
    simp [networkNumberAndMask, hip, hmask, Quad.bytes]
  rw [contains, hnet]
  cases hto4 : ip.to4 with
  | none =>
      have hlen := IP.length_of_to4_none hto4
      simp [Quad.bytes, hlen]
  | some a => simp [Quad.bytes, Quad.and]

theorem IPNet.HasPrefix.contains_iff {net : IPNet} {p : Nat} (h : net.HasPrefix p) {b : UInt32}
    (hb : net.ip.toUint32 = .ok b) (ip : IP) : net.contains ip = true ↔
      ∃ a, ip.toUint32 = .ok a ∧ a.toNat / 2 ^ (32 - p) = b.toNat / 2 ^ (32 - p) := by
  obtain ⟨q, hq, rfl⟩ := IP.toUint32_eq_ok.mp hb
  obtain ⟨m, hbytes, hm⟩ := IPMask.toUint32_four h.isIPv4.2
  obtain ⟨-, m', hm', hsum⟩ := h.mask_toNat
  cases hm.symm.trans hm'
  have hpos : 0 < 2 ^ (32 - p) := Nat.two_pow_pos _
  -- the bits of the mask are what is left of the division
  have hand (a : Quad) : q.and m = a.and m ↔
      a.toUint32.toNat / 2 ^ (32 - p) = q.toUint32.toNat / 2 ^ (32 - p) := by
    rw [← Quad.toUint32_injective.eq_iff, Quad.and_toUint32, Quad.and_toUint32, ← UInt32.toNat_inj,
      and_mask_toNat hsum, and_mask_toNat hsum, Nat.mul_left_inj hpos.ne', eq_comm]
  rw [IPNet.contains_iff hq hbytes]
  constructor
  · rintro ⟨a, ha, hsame⟩
    exact ⟨a.toUint32, IP.toUint32_eq_ok.mpr ⟨a, ha, rfl⟩, (hand a).mp hsame⟩
  · rintro ⟨n, hn, hsame⟩
    obtain ⟨a, ha, rfl⟩ := IP.toUint32_eq_ok.mp hn
    exact ⟨a, ha, (hand a).mpr hsame⟩

/-! ## Private addresses -/

/-- 10.0.0.0/8, 172.16.0.0/12 and 192.168.0.0/16. -/
def IsPrivate (a : UInt32) : Prop :=
  a.toNat / 2 ^ 24 = 10 ∨ a.toNat / 2 ^ 20 = 172 * 2 ^ 4 + 1 ∨ a.toNat / 2 ^ 16 = 192 * 2 ^ 8 + 168

theorem div_two_pow_congr {a b i k : Nat} (h : a / 2 ^ i = b / 2 ^ i) (hik : i ≤ k) :
    a / 2 ^ k = b / 2 ^ k := by
  obtain ⟨j, rfl⟩ := Nat.exists_eq_add_of_le hik
  rw [pow_add, ← Nat.div_div_eq_div_mul, ← Nat.div_div_eq_div_mul, h]

/-- What is said of the blocks with an address is said of the numbers they begin with. -/
theorem forall_privateBlocks_iff {ip : IP} {b : UInt32} (hb : ip.toUint32 = .ok b)
    (P : Nat → Prop) : (∀ block ∈ privateBlocks, block.contains ip = true → P block.mask.size.1) ↔
      (b.toNat / 2 ^ 24 = 10 → P 8) ∧ (b.toNat / 2 ^ 20 = 172 * 2 ^ 4 + 1 → P 12) ∧
        (b.toNat / 2 ^ 16 = 192 * 2 ^ 8 + 168 → P 16) := by
  have hblock (block : IPNet) (bits : Nat) (n : UInt32) (hblock : block.HasPrefix bits)
      (hn : block.ip.toUint32 = .ok n) : block.contains ip = true ↔
        b.toNat / 2 ^ (32 - bits) = n.toNat / 2 ^ (32 - bits) := by
    rw [hblock.contains_iff hn]
    constructor
    · rintro ⟨a, ha, hsame⟩
      cases ha.symm.trans hb
      exact hsame
    · intro hsame
      exact ⟨b, hb, hsame⟩
  have hten := hblock ⟨⟨[10, 0, 0, 0]⟩, ⟨[255, 0, 0, 0]⟩⟩ 8 0x0A000000 ⟨rfl, rfl⟩ rfl
  have hsixteen := hblock ⟨⟨[172, 16, 0, 0]⟩, ⟨[255, 240, 0, 0]⟩⟩ 12 0xAC100000 ⟨rfl, rfl⟩ rfl
  have hclass := hblock ⟨⟨[192, 168, 0, 0]⟩, ⟨[255, 255, 0, 0]⟩⟩ 16 0xC0A80000 ⟨rfl, rfl⟩ rfl
  have hnil : ∀ block ∈ ([] : List IPNet), block.contains ip = true → P block.mask.size.1 :=
    fun _ hmem ↦ absurd hmem List.not_mem_nil
  simp only [privateBlocks, List.forall_mem_cons, hten, hsixteen, hclass, iff_true_intro hnil,
    and_true]
  exact Iff.rfl

/-- The number lies in a private block whose prefix is no longer than `p`. -/
def InBlock (n p : Nat) : Prop :=
  (n / 2 ^ 24 = 10 ∧ 8 ≤ p) ∨ (n / 2 ^ 20 = 172 * 2 ^ 4 + 1 ∧ 12 ≤ p) ∨
    (n / 2 ^ 16 = 192 * 2 ^ 8 + 168 ∧ 16 ≤ p)

theorem isPrivateIPNet_iff (net : IPNet) {b : UInt32} (hb : net.ip.toUint32 = .ok b) :
    isPrivateIPNet net = true ↔ InBlock b.toNat net.mask.size.1 := by
  have hnone := forall_privateBlocks_iff hb (net.mask.size.1 < ·)
  have hany : isPrivateIPNet net = true ↔
      ¬ ∀ block ∈ privateBlocks, block.contains net.ip = true →
        net.mask.size.1 < block.mask.size.1 := by
    rw [isPrivateIPNet, List.any_eq_true]
    simp
  rw [hany, hnone, InBlock]
  omega

/-- All addresses of the network are private. -/
def IPNet.AllPrivate (net : IPNet) : Prop :=
  ∀ ip, net.contains ip = true → ∃ a, ip.toUint32 = .ok a ∧ IsPrivate a

theorem IPNet.HasPrefix.allPrivate_iff {net : IPNet} {p : Nat} (h : net.HasPrefix p) {b : UInt32}
    (hb : net.ip.toUint32 = .ok b) : net.AllPrivate ↔ InBlock b.toNat p := by
  have hp := h.mask_toNat.1
  constructor
  · intro hall
    -- every address with the same network bits is private
    have hnumber (n : Nat) (hn : n < 2 ^ 32)
        (hsame : n / 2 ^ (32 - p) = b.toNat / 2 ^ (32 - p)) : n / 2 ^ 24 = 10 ∨
          n / 2 ^ 20 = 172 * 2 ^ 4 + 1 ∨ n / 2 ^ 16 = 192 * 2 ^ 8 + 168 := by
      have htoNat : (UInt32.ofNat n).toNat = n := UInt32.toNat_ofNat_of_lt' hn
      obtain ⟨a, ha, hprivate⟩ := hall (uint32ToIP (.ofNat n))
        ((h.contains_iff hb _).mpr ⟨_, toUint32_uint32ToIP _, by rw [htoNat, hsame]⟩)
      cases (toUint32_uint32ToIP _).symm.trans ha
      rwa [IsPrivate, htoNat] at hprivate
    -- with a shorter prefix the network reaches into the block's neighbour, which is not private
    rcases hnumber b.toNat b.toNat_lt rfl with hblock | hblock | hblock
    · refine .inl ⟨hblock, ?_⟩
      by_contra hbits
      have hnext : (b.toNat + 2 ^ 24) / 2 ^ 25 = b.toNat / 2 ^ 25 := by omega
      have hprivate := hnumber (b.toNat + 2 ^ 24) (by omega) (div_two_pow_congr hnext (by omega))
      omega
    · refine .inr (.inl ⟨hblock, ?_⟩)
      by_contra hbits
      have hbefore : (b.toNat - 2 ^ 20) / 2 ^ 21 = b.toNat / 2 ^ 21 := by omega
      have hprivate := hnumber (b.toNat - 2 ^ 20) (by omega) (div_two_pow_congr hbefore (by omega))
      omega
    · refine .inr (.inr ⟨hblock, ?_⟩)
      by_contra hbits
      have hnext : (b.toNat + 2 ^ 16) / 2 ^ 17 = b.toNat / 2 ^ 17 := by omega
      have hprivate := hnumber (b.toNat + 2 ^ 16) (by omega) (div_two_pow_congr hnext (by omega))
      omega
  · intro hprivate ip hcontains
    obtain ⟨a, ha, hsame⟩ := (h.contains_iff hb ip).mp hcontains
    refine ⟨a, ha, ?_⟩
    rcases hprivate with ⟨hblock, hbits⟩ | ⟨hblock, hbits⟩ | ⟨hblock, hbits⟩
    · exact .inl ((div_two_pow_congr hsame (by omega)).trans hblock)
    · exact .inr (.inl ((div_two_pow_congr hsame (by omega)).trans hblock))
    · exact .inr (.inr ((div_two_pow_congr hsame (by omega)).trans hblock))

/-! ## Masks of 16 bytes -/

/-- An IPv4 network with a mask of ones and then zeros, of 4 bytes or of 16: of the long one only
the last 4 bytes count. -/
structure IPNet.Canonical (net : IPNet) (ones bits : Nat) : Prop where
  isv4 : net.ip.isv4 = true
  size : net.mask.size = (ones, bits)
  form : bits = 32 ∨ bits = 128

theorem simpleMaskLength_zeros {bytes : List UInt8} (h : bytes.all (· == 0) = true) :
    simpleMaskLength bytes = some 0 := by
  cases bytes with
  | nil => rfl
  | cons v rest =>
      rw [List.all_cons, Bool.and_eq_true, beq_iff_eq] at h
      obtain ⟨rfl, hrest⟩ := h
      rw [simpleMaskLength, if_neg (by decide)]
      exact if_pos ⟨rfl, hrest⟩

/-- Without its first bytes a mask has eight ones less for each of them. -/
theorem simpleMaskLength_drop {bytes : List UInt8} {ones : Nat}
    (h : simpleMaskLength bytes = some ones) (k : Nat) :
    simpleMaskLength (bytes.drop k) = some (ones - 8 * k) := by
  induction bytes generalizing ones k with
  | nil =>
      cases h
      rw [List.drop_nil, Nat.zero_sub]
      rfl
  | cons v rest ih =>
      cases k with
      | zero => exact h
      | succ k =>
          rw [List.drop_succ_cons]
          rw [simpleMaskLength] at h
          split at h
          · obtain ⟨less, hless, rfl⟩ := Option.map_eq_some_iff.mp h
            rw [ih hless k]
            congr 1
            omega
          · change (if (leadingOnes 8 v).2 = 0 ∧ rest.all (· == 0) then some (leadingOnes 8 v).1
              else none) = some ones at h
            obtain ⟨⟨hleft, hzeros⟩, hones⟩ := Option.ite_none_right_eq_some.mp h
            have hle := (leadingOnes_toNat v hleft).1
            have hrest : (rest.drop k).all (· == 0) = true := by
              rw [List.all_eq_true] at hzeros ⊢
              exact fun b hb ↦ hzeros b (List.mem_of_mem_drop hb)
            rw [simpleMaskLength_zeros hrest, ← Option.some.inj hones]
            congr 1
            omega

/-- The network with the last 4 bytes of its mask. -/
def IPNet.narrowed (net : IPNet) : IPNet := ⟨net.ip, ⟨net.mask.bytes.drop 12⟩⟩

theorem IPNet.contains_narrowed {net : IPNet} (hip : net.ip.isv4 = true)
    (hlen : net.mask.bytes.length = 16) (ip : IP) :
    net.narrowed.contains ip = net.contains ip := by
  obtain ⟨q, hq⟩ := Option.isSome_iff_exists.mp hip
  have hnet : net.narrowed.networkNumberAndMask = net.networkNumberAndMask := by
    simp [narrowed, networkNumberAndMask, hq, hlen, Quad.bytes]
  rw [contains, contains, hnet]

theorem IPNet.Canonical.allPrivate_iff {net : IPNet} {ones bits : Nat}
    (h : net.Canonical ones bits) {b : UInt32} (hb : net.ip.toUint32 = .ok b) :
    net.AllPrivate ↔ InBlock b.toNat (ones - (bits - 32)) := by
  obtain rfl | rfl := h.form
  · exact IPNet.HasPrefix.allPrivate_iff ⟨h.isv4, h.size⟩ hb
  · have hsize := h.size
    rw [IPMask.size] at hsize
    split at hsize
    next found hfound =>
      obtain ⟨rfl, hbytes⟩ := Prod.mk.inj hsize
      have hlen : net.mask.bytes.length = 16 := by omega
      have hprefix : net.narrowed.HasPrefix (found - 96) := by
        refine ⟨h.isv4, ?_⟩
        rw [IPMask.size, narrowed, simpleMaskLength_drop hfound, List.length_drop, hlen]
      rw [← hprefix.allPrivate_iff hb, AllPrivate, AllPrivate]
      simp only [contains_narrowed h.isv4 hlen]
    next => cases hsize

/-- `IsPrivateIPNet` tells whether all addresses of the network are private, but for a mask of 16
bytes with enough ones to reach the prefix of the block and not 96 more. -/
theorem isPrivateIPNet_right_iff (net : IPNet) (ones bits : Nat) (h : net.Canonical ones bits) :
    (isPrivateIPNet net = true ↔ net.AllPrivate) ↔
      bits = 32 ∨ ∀ block ∈ privateBlocks, block.contains net.ip = true →
        ones < block.mask.size.1 ∨ block.mask.size.1 + 96 ≤ ones := by
  obtain ⟨b, hb⟩ := (IP.isv4_iff net.ip).mp h.isv4
  rw [isPrivateIPNet_iff net hb, h.allPrivate_iff hb, h.size,
    forall_privateBlocks_iff hb fun p ↦ ones < p ∨ p + 96 ≤ ones, InBlock, InBlock]
  obtain rfl | rfl := h.form
  · exact iff_of_true Iff.rfl (.inl rfl)
  · -- the address is in one block at most
    by_cases hten : b.toNat / 2 ^ 24 = 10
    · have hsixteen : ¬ b.toNat / 2 ^ 20 = 172 * 2 ^ 4 + 1 := by omega
      have hclass : ¬ b.toNat / 2 ^ 16 = 192 * 2 ^ 8 + 168 := by omega
      simp only [iff_true_intro hten, hsixteen, hclass, true_and, false_and, or_false, true_implies,
        false_implies, and_true]
      omega
    · by_cases hsixteen : b.toNat / 2 ^ 20 = 172 * 2 ^ 4 + 1
      · have hclass : ¬ b.toNat / 2 ^ 16 = 192 * 2 ^ 8 + 168 := by omega
        simp only [hten, iff_true_intro hsixteen, hclass, true_and, false_and, or_false, false_or,
          true_implies, false_implies, and_true]
        omega
      · simp only [hten, hsixteen, false_and, false_or, false_implies, true_and]
        by_cases hclass : b.toNat / 2 ^ 16 = 192 * 2 ^ 8 + 168
        · simp only [iff_true_intro hclass, true_and, true_implies]
          omega
        · simp only [hclass, false_and, false_implies, or_true]

/-- 10.11.12.13/8, by a host address, with a mask of 4 bytes and with one of 16. -/
theorem isPrivateIPNet_tenEight :
    (isPrivateIPNet ⟨⟨[10, 11, 12, 13]⟩, ⟨[255, 0, 0, 0]⟩⟩ = true ↔
      IPNet.AllPrivate ⟨⟨[10, 11, 12, 13]⟩, ⟨[255, 0, 0, 0]⟩⟩) ∧
    (isPrivateIPNet ⟨⟨[10, 11, 12, 13]⟩, ⟨List.replicate 13 255 ++ [0, 0, 0]⟩⟩ = true ↔
      IPNet.AllPrivate ⟨⟨[10, 11, 12, 13]⟩, ⟨List.replicate 13 255 ++ [0, 0, 0]⟩⟩) :=
  ⟨(isPrivateIPNet_right_iff _ 8 32 ⟨rfl, rfl, .inl rfl⟩).mpr (.inl rfl),
    (isPrivateIPNet_right_iff _ 104 128 ⟨rfl, rfl, .inr rfl⟩).mpr (.inr (by decide))⟩

/-- `::ffff:10.0.0.0/103` is 10.0.0.0/7, which has 11.0.0.0; 103 ones are more than 8. -/
theorem isPrivateIPNet_mapped_tenSeven :
    let net : IPNet := ⟨⟨v4InV6Prefix ++ [10, 0, 0, 0]⟩, ⟨List.replicate 12 255 ++ [254, 0, 0, 0]⟩⟩
    net.Canonical 103 128 ∧ isPrivateIPNet net = true ∧
      net.contains ⟨[11, 0, 0, 0]⟩ = true ∧ IP.toUint32 ⟨[11, 0, 0, 0]⟩ = .ok 0x0B000000 ∧
      ¬ IsPrivate 0x0B000000 ∧ ¬ net.AllPrivate := by
  intro net
  have hcontains : net.contains ⟨[11, 0, 0, 0]⟩ = true := by decide
  have hpublic : ¬ IsPrivate 0x0B000000 := by
    rw [IsPrivate]
    decide
  refine ⟨⟨rfl, rfl, .inr rfl⟩, by decide, hcontains, rfl, hpublic, fun hall ↦ ?_⟩
  obtain ⟨a, ha, hprivate⟩ := hall _ hcontains
  cases ha
  exact hpublic hprivate

end CommonLib.XNet
