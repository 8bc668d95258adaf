import CommonLib.Reasoning.Crash

/-!
# IPv4 addresses and subnets

`xnet.IP` and `xnet.IPNet` wrap the byte slices of the standard library.  Addresses are compared
and stored as `uint32`; the usable range of a subnet is found by changing the last byte of the
network and of the broadcast address.
-/

namespace CommonLib.XNet

open CommonLib.Reasoning

/-- The four bytes `To4` leaves. -/
structure Quad where
  a : UInt8
  b : UInt8
  c : UInt8
  d : UInt8
deriving DecidableEq, Repr

/-- `xnet.IP`; the nil address has no bytes. -/
structure IP where
  bytes : List UInt8
deriving DecidableEq, Repr

def v4InV6Prefix : List UInt8 := [0, 0, 0, 0, 0, 0, 0, 0, 0, 0, 0xff, 0xff]

def quadOfBytes : List UInt8 → Option Quad
  | [a, b, c, d] => some ⟨a, b, c, d⟩
  | _ => none

def IP.to4 (ip : IP) : Option Quad :=
  if ip.bytes.length = 16 ∧ ip.bytes.take 12 = v4InV6Prefix then quadOfBytes (ip.bytes.drop 12)
  else quadOfBytes ip.bytes

def IP.isv4 (ip : IP) : Bool := ip.to4.isSome

def Quad.bytes (q : Quad) : List UInt8 := [q.a, q.b, q.c, q.d]

def Quad.toIP (q : Quad) : IP := ⟨[q.a, q.b, q.c, q.d]⟩

def Quad.toUint32 (q : Quad) : UInt32 :=
  q.a.toUInt32 <<< 24 ||| q.b.toUInt32 <<< 16 ||| q.c.toUInt32 <<< 8 ||| q.d.toUInt32

/-- `IP.ToUint32` indexes the result of `To4`, so it panics on anything but an IPv4 address. -/
def IP.toUint32 (ip : IP) : Except Crash UInt32 :=
  match ip.to4 with
  | some q => .ok q.toUint32
  | none => .error .indexOutOfRange

def uint32ToQuad (n : UInt32) : Quad where
  a := ((n &&& 0xFF000000) >>> 24).toUInt8
  b := ((n &&& 0x00FF0000) >>> 16).toUInt8
  c := ((n &&& 0x0000FF00) >>> 8).toUInt8
  d := (n &&& 0x000000FF).toUInt8

def uint32ToIP (n : UInt32) : IP := (uint32ToQuad n).toIP

@[simp] theorem Quad.to4_toIP (q : Quad) : q.toIP.to4 = some q := by
  simp [Quad.toIP, IP.to4, quadOfBytes]

theorem Quad.toUint32_toNat (q : Quad) :
    q.toUint32.toNat = q.a.toNat * 2 ^ 24 + q.b.toNat * 2 ^ 16 + q.c.toNat * 2 ^ 8 + q.d.toNat := by
  have ha := q.a.toNat_lt
  have hb := q.b.toNat_lt
  have hc := q.c.toNat_lt
  have hd := q.d.toNat_lt
  simp only [Quad.toUint32, UInt32.toNat_or, UInt32.toNat_shiftLeft, UInt8.toNat_toUInt32]
  change (q.a.toNat <<< 24 % 4294967296 ||| q.b.toNat <<< 16 % 4294967296 |||
    q.c.toNat <<< 8 % 4294967296 ||| q.d.toNat) = _
  simp only [Nat.shiftLeft_eq, Nat.lor_assoc]
  rw [Nat.mod_eq_of_lt (by omega), Nat.mod_eq_of_lt (by omega), Nat.mod_eq_of_lt (by omega)]
  -- Each byte lies below the next one's lowest bit, so the disjunctions are sums.
  have hcd := Nat.two_pow_add_eq_or_of_lt (i := 8) (b := q.d.toNat) (by omega) q.c.toNat
  have hbcd := Nat.two_pow_add_eq_or_of_lt (i := 16) (b := 2 ^ 8 * q.c.toNat + q.d.toNat)
    (by omega) q.b.toNat
  have habcd := Nat.two_pow_add_eq_or_of_lt (i := 24)
    (b := 2 ^ 16 * q.b.toNat + (2 ^ 8 * q.c.toNat + q.d.toNat)) (by omega) q.a.toNat
  rw [Nat.mul_comm q.a.toNat, Nat.mul_comm q.b.toNat, Nat.mul_comm q.c.toNat, ← hcd, ← hbcd,
    ← habcd]
  omega

private theorem byte_of_masked_shift (n k : Nat) : (n &&& (255 <<< k)) >>> k = n / 2 ^ k % 256 := by
  rw [Nat.shiftRight_and_distrib, Nat.shiftLeft_shiftRight, Nat.shiftRight_eq_div_pow,
    show 255 = 2 ^ 8 - 1 from rfl, Nat.and_two_pow_sub_one_eq_mod]

theorem uint32ToQuad_toNat (n : UInt32) :
    (uint32ToQuad n).a.toNat = n.toNat / 2 ^ 24 ∧
      (uint32ToQuad n).b.toNat = n.toNat / 2 ^ 16 % 256 ∧
      (uint32ToQuad n).c.toNat = n.toNat / 2 ^ 8 % 256 ∧
      (uint32ToQuad n).d.toNat = n.toNat % 256 := by
  have hn := n.toNat_lt
  have ha := byte_of_masked_shift n.toNat 24
  have hb := byte_of_masked_shift n.toNat 16
  have hc := byte_of_masked_shift n.toNat 8
  have hd := byte_of_masked_shift n.toNat 0
  simp only [uint32ToQuad, UInt32.toNat_toUInt8, UInt32.toNat_and, UInt32.toNat_shiftRight,
    UInt32.reduceToNat]
  norm_num [Nat.shiftLeft_eq] at ha hb hc hd ⊢
  omega

@[simp] theorem uint32ToQuad_toUint32 (n : UInt32) : (uint32ToQuad n).toUint32 = n := by
  obtain ⟨ha, hb, hc, hd⟩ := uint32ToQuad_toNat n
  apply UInt32.toNat_inj.mp
  rw [Quad.toUint32_toNat, ha, hb, hc, hd]
  omega

@[simp] theorem toUint32_uint32ToIP (n : UInt32) : (uint32ToIP n).toUint32 = .ok n := by
  simp [uint32ToIP, IP.toUint32]

theorem Quad.toUint32_injective : Function.Injective Quad.toUint32 := by
  intro p q h
  have hnat := congrArg UInt32.toNat h
  rw [p.toUint32_toNat, q.toUint32_toNat] at hnat
  have := p.b.toNat_lt
  have := p.c.toNat_lt
  have := p.d.toNat_lt
  have := q.b.toNat_lt
  have := q.c.toNat_lt
  have := q.d.toNat_lt
  obtain ⟨pa, pb, pc, pd⟩ := p
  obtain ⟨qa, qb, qc, qd⟩ := q
  dsimp only at *
  simp only [Quad.mk.injEq, ← UInt8.toNat_inj]
  omega

theorem IP.toUint32_eq_ok {ip : IP} {n : UInt32} :
    ip.toUint32 = .ok n ↔ ∃ q, ip.to4 = some q ∧ q.toUint32 = n := by
  unfold IP.toUint32
  cases ip.to4 <;> simp

theorem IP.isv4_iff (ip : IP) : ip.isv4 = true ↔ ∃ n, ip.toUint32 = .ok n := by
  unfold IP.isv4 IP.toUint32
  cases ip.to4 <;> simp

/-! ## Masks and subnets -/

structure IPMask where
  bytes : List UInt8
deriving DecidableEq, Repr

structure IPNet where
  ip : IP
  mask : IPMask
deriving DecidableEq, Repr

/-- The leading ones of a mask byte, counted on at most `fuel` bits, with what is left of it. -/
def leadingOnes : Nat → UInt8 → Nat × UInt8
  | 0, v => (0, v)
  | fuel + 1, v =>
      if v &&& 0x80 = 0 then (0, v)
      else
        let (n, rest) := leadingOnes fuel (v <<< 1)
        (n + 1, rest)

/-- `net.simpleMaskLength`; `none` stands for the `-1` of a mask that is not ones then zeros. -/
def simpleMaskLength : List UInt8 → Option Nat
  | [] => some 0
  | v :: rest =>
      if v = 0xff then (simpleMaskLength rest).map (· + 8)
      else
        let (n, left) := leadingOnes 8 v
        if left = 0 ∧ rest.all (· == 0) then some n else none

/-- `IPMask.Size`: a mask that is not canonical has size `0, 0`. -/
def IPMask.size (mask : IPMask) : Nat × Nat :=
  match simpleMaskLength mask.bytes with
  | some ones => (ones, mask.bytes.length * 8)
  | none => (0, 0)

/-- `IPMask.ToUint32` reads the first four bytes and panics on a shorter mask. -/
def IPMask.toUint32 (mask : IPMask) : Except Crash UInt32 :=
  match mask.bytes with
  | a :: b :: c :: d :: _ => .ok (Quad.toUint32 ⟨a, b, c, d⟩)
  | _ => .error .indexOutOfRange

def IPNet.networkAddr (net : IPNet) : Except Crash Quad := do
  let mask ← net.mask.toUint32
  let ip ← net.ip.toUint32
  return uint32ToQuad (ip &&& mask)

def IPNet.broadcastAddr (net : IPNet) : Except Crash Quad := do
  let mask ← net.mask.toUint32
  let ip ← net.ip.toUint32
  return uint32ToQuad (ip &&& mask ||| mask ^^^ 0xFFFFFFFF)

def IPNet.firstUsable (net : IPNet) : Except Crash Quad := do
  let netAddr ← net.networkAddr
  return if net.mask.size.1 ≤ 30 then { netAddr with d := netAddr.d + 1 } else netAddr

def IPNet.lastUsable (net : IPNet) : Except Crash Quad := do
  let bcAddr ← net.broadcastAddr
  return if net.mask.size.1 ≤ 30 then { bcAddr with d := bcAddr.d - 1 } else bcAddr

end CommonLib.XNet
