import Mathlib

/-! The byte-level vocabulary of the server's C code: fixed-width integers copied with
`memcpy` in x86-64 little-endian order, the C integer conversions the handlers rely on, and
memory blocks whose every access is checked against the block's size. -/
namespace RemoteFileIO

/-- Bytes as the C code holds them in memory or on the wire. -/
abbrev Bytes := List UInt8

/-- How a call of the session's child process stops short of returning. -/
inductive Stop
  /-- `err(1, 0)`: the child process exits. -/
  | exit
  /-- An access of `count` bytes at `off` outside a block of `size` bytes: undefined behaviour. -/
  | fault (size off count : Nat)
  /-- Other undefined behaviour: a variable-length array of negative size. -/
  | undefined
  /-- A call on the session socket, whose effect on the connection the model does not follow. -/
  | socket
  /-- The model's fuel ran out before the code returned. -/
  | fuel
  deriving DecidableEq

/-- A term, not `rfl`, so that `simp` rewrites with it instead of unfolding `bind`. -/
@[simp] theorem except_ok_bind {ε α β : Type} (a : α) (f : α → Except ε β) :
    (Except.ok a >>= f) = f a := Eq.trans rfl rfl

@[simp] theorem except_error_bind {ε α β : Type} (e : ε) (f : α → Except ε β) :
    (Except.error e >>= f) = Except.error e := rfl

@[simp] theorem except_pure {ε α : Type} (a : α) : (pure a : Except ε α) = Except.ok a := rfl

theorem except_bind_eq_ok {ε α β : Type} {x : Except ε α} {f : α → Except ε β} {b : β}
    (h : x >>= f = .ok b) : ∃ a, x = .ok a ∧ f a = .ok b := by
  cases x with
  | error e => cases h
  | ok a => exact ⟨a, rfl, h⟩

theorem except_bind_congr {ε α β : Type} {x : Except ε α} {f g : α → Except ε β} {r : Except ε β}
    (h : x >>= f = r) (hg : ∀ a, x = .ok a → f a = r → g a = r) : x >>= g = r := by
  cases x with
  | error e => exact h
  | ok a => exact hg a rfl h

/-- Conversion to `int`: the value modulo 2^32, in [-2^31, 2^31) (what gcc does on x86-64). -/
def toInt32 (x : Int) : Int := if x % 2^32 < 2^31 then x % 2^32 else x % 2^32 - 2^32

/-- Conversion to `ssize_t` or `off_t`. -/
def toInt64 (x : Int) : Int := if x % 2^64 < 2^63 then x % 2^64 else x % 2^64 - 2^64

/-- Conversion to `size_t`: a negative `int` becomes a huge unsigned length. -/
def toSizeT (x : Int) : Nat := (x % 2^64).toNat

theorem toInt32_of_lt {x : Int} (h₁ : -2^31 ≤ x) (h₂ : x < 2^31) : toInt32 x = x := by
  unfold toInt32; split <;> omega

theorem toInt64_of_lt {x : Int} (h₁ : -2^63 ≤ x) (h₂ : x < 2^63) : toInt64 x = x := by
  unfold toInt64; split <;> omega

theorem toInt32_range (x : Int) : -2^31 ≤ toInt32 x ∧ toInt32 x < 2^31 := by
  unfold toInt32; split <;> omega

theorem toInt64_range (x : Int) : -2^63 ≤ toInt64 x ∧ toInt64 x < 2^63 := by
  unfold toInt64; split <;> omega

@[simp] theorem toSizeT_natCast {n : Nat} (h : n < 2^64) : toSizeT n = n := by
  unfold toSizeT; omega

/-- The `w` low-order bytes of `n`, least significant first. -/
def leBytes : Nat → Nat → Bytes
  | 0, _ => []
  | w + 1, n => (n % 256).toUInt8 :: leBytes w (n / 256)

/-- The unsigned value of little-endian bytes. -/
def leValue : Bytes → Nat
  | [] => 0
  | b :: bs => b.toNat + 256 * leValue bs

/-- `memcpy(p, &x, 4)` for an `int x`. -/
def int32Bytes (x : Int) : Bytes := leBytes 4 (toSizeT x)

/-- `memcpy(p, &x, 8)` for a `ssize_t`, `off_t` or `size_t` `x`. -/
def int64Bytes (x : Int) : Bytes := leBytes 8 (toSizeT x)

theorem toNat_toUInt8 (n : Nat) : n.toUInt8.toNat = n % 256 := rfl

@[simp] theorem leBytes_length (w n : Nat) : (leBytes w n).length = w := by
  induction w generalizing n <;> simp_all [leBytes]

theorem leValue_leBytes (w n : Nat) : leValue (leBytes w n) = n % 256 ^ w := by
  induction w generalizing n with
  | zero => simp [leBytes, leValue, Nat.mod_one]
  | succ w ih =>
    simp only [leBytes, leValue, ih, toNat_toUInt8, Nat.mod_mod, Nat.pow_succ', Nat.mod_mul]

@[simp] theorem int32Bytes_length (x : Int) : (int32Bytes x).length = 4 := leBytes_length 4 _

@[simp] theorem int64Bytes_length (x : Int) : (int64Bytes x).length = 8 := leBytes_length 8 _

@[simp] theorem toInt32_leValue_int32Bytes (x : Int) :
    toInt32 (leValue (int32Bytes x)) = toInt32 x := by
  rw [int32Bytes, leValue_leBytes]
  unfold toInt32 toSizeT
  split <;> split <;> omega

@[simp] theorem toInt64_leValue_int64Bytes (x : Int) :
    toInt64 (leValue (int64Bytes x)) = toInt64 x := by
  rw [int64Bytes, leValue_leBytes]
  unfold toInt64 toSizeT
  split <;> split <;> omega

theorem leValue_lt (bs : Bytes) : leValue bs < 256 ^ bs.length := by
  induction bs with
  | nil => simp [leValue]
  | cons b bs ih => have := b.toNat_lt; simp only [leValue, List.length_cons, pow_succ]; omega

theorem leBytes_leValue {bs : Bytes} {w : Nat} (h : bs.length = w) : leBytes w (leValue bs) = bs := by
  subst h
  induction bs with
  | nil => rfl
  | cons b bs ih =>
    have hb := b.toNat_lt
    have h₁ : (b.toNat + 256 * leValue bs) % 256 = b.toNat := by omega
    have h₂ : (b.toNat + 256 * leValue bs) / 256 = leValue bs := by omega
    simp only [List.length_cons, leBytes, leValue, h₁, h₂, ih]
    exact congrArg (· :: bs) (UInt8.toNat.inj (by rw [toNat_toUInt8, Nat.mod_eq_of_lt hb]))

theorem leBytes_mod (w n : Nat) : leBytes w (n % 256 ^ w) = leBytes w n := by
  induction w generalizing n with
  | zero => rfl
  | succ w ih =>
    rw [pow_succ', leBytes, leBytes, Nat.mod_mul_right_mod, Nat.mod_mul_right_div_self, ih]

theorem int32Bytes_toInt32 {v : Nat} (hv : v < 256 ^ 4) : int32Bytes (toInt32 v) = leBytes 4 v := by
  have hmod : toSizeT (toInt32 v) % 256 ^ 4 = v := by
    unfold toSizeT toInt32; split <;> omega
  rw [int32Bytes, ← leBytes_mod, hmod]

theorem int64Bytes_toInt64 {v : Nat} (hv : v < 256 ^ 8) : int64Bytes (toInt64 v) = leBytes 8 v := by
  have hmod : toSizeT (toInt64 v) % 256 ^ 8 = v := by
    unfold toSizeT toInt64; split <;> omega
  rw [int64Bytes, ← leBytes_mod, hmod]

/-- `MAXMSGLEN`: the size of the encoder's first buffer and of the largest `recv`. -/
def maxMsgLen : Int := 200

/-- A heap or stack block: its size, and the bytes stored from its start. -/
structure Block where
  size : Nat
  data : Bytes

/-- The bytes stored after `memcpy(p + off, src, src.length)`; a gap before `off` reads as 0. -/
def storeAt (data : Bytes) (off : Nat) (src : Bytes) : Bytes :=
  data.take off ++ List.replicate (off - data.length) 0 ++ src ++ data.drop (off + src.length)

/-- `memcpy(b + off, src, src.length)`, a fault when it would write past the block. -/
def Block.write (b : Block) (off : Nat) (src : Bytes) : Except Stop Block :=
  if off + src.length ≤ b.size then .ok { b with data := storeAt b.data off src }
  else .error (.fault b.size off src.length)

/-- The `n` bytes at `b + off`, a fault when they are not all inside the block. -/
def Block.read (b : Block) (off n : Nat) : Except Stop Bytes :=
  if off + n ≤ b.size then .ok ((b.data.drop off).take n) else .error (.fault b.size off n)

/-- `*(T*)(b + off)` for an unsigned `w`-byte `T`. -/
def Block.peek (b : Block) (off w : Nat) : Except Stop Nat := do pure (leValue (← b.read off w))

@[simp] theorem storeAt_length_self (data src : Bytes) :
    storeAt data data.length src = data ++ src := by
  simp [storeAt]

theorem storeAt_of_length {data src : Bytes} {off : Nat} (h : data.length = off) :
    storeAt data off src = data ++ src := by
  subst h; exact storeAt_length_self data src

@[simp] theorem storeAt_zero (data src : Bytes) : storeAt data 0 src = src ++ data.drop src.length := by
  simp [storeAt]

theorem Block.write_of_le {b : Block} {off : Nat} {src : Bytes} (h : off + src.length ≤ b.size) :
    b.write off src = .ok { b with data := storeAt b.data off src } := if_pos h

theorem Block.write_of_lt {b : Block} {off : Nat} {src : Bytes} (h : b.size < off + src.length) :
    b.write off src = .error (.fault b.size off src.length) := if_neg (by omega)

theorem Block.write_end {b : Block} {src : Bytes} (h : b.data.length + src.length ≤ b.size) :
    b.write b.data.length src = .ok { b with data := b.data ++ src } := by
  rw [Block.write_of_le h, storeAt_length_self]

theorem Block.read_of_le {b : Block} {off n : Nat} (h : off + n ≤ b.size) :
    b.read off n = .ok ((b.data.drop off).take n) := if_pos h

theorem Block.read_of_lt {b : Block} {off n : Nat} (h : b.size < off + n) :
    b.read off n = .error (.fault b.size off n) := if_neg (by omega)

theorem Block.read_mk_of_le {size off n : Nat} {data : Bytes} (h : off + n ≤ size) :
    Block.read ⟨size, data⟩ off n = .ok ((data.drop off).take n) := Block.read_of_le h

theorem Block.read_mk_of_lt {size off n : Nat} {data : Bytes} (h : size < off + n) :
    Block.read ⟨size, data⟩ off n = .error (.fault size off n) := Block.read_of_lt h

section Fields

variable {size off n : Nat} {rest : Bytes}

theorem Block.read_skip {f : Bytes} (h : f.length ≤ off) (hfit : off + n ≤ size) :
    Block.read ⟨size, f ++ rest⟩ off n = Block.read ⟨size - f.length, rest⟩ (off - f.length) n := by
  rw [Block.read_of_le hfit, Block.read_of_le (by simp only; omega)]
  simp only [List.drop_append_eq_append_drop, List.drop_eq_nil_of_le h, List.nil_append]

theorem Block.read_head {f : Bytes} (hn : f.length = n) (hfit : n ≤ size) :
    Block.read ⟨size, f ++ rest⟩ 0 n = .ok f := by
  rw [Block.read_of_le (by simpa using hfit)]
  simp [← hn]

theorem Block.read_all {f : Bytes} (hn : f.length = n) (hfit : n ≤ size) :
    Block.read ⟨size, f⟩ 0 n = .ok f := by
  simpa using @Block.read_head size n [] f hn hfit

@[simp] theorem Block.read_leBytes_skip {w v : Nat} (h : w ≤ off) (hfit : off + n ≤ size) :
    Block.read ⟨size, leBytes w v ++ rest⟩ off n = Block.read ⟨size - w, rest⟩ (off - w) n := by
  simpa using @Block.read_skip size off n rest (leBytes w v) (by simpa using h) hfit

@[simp] theorem Block.read_leBytes_head {w v : Nat} (hfit : w ≤ size) :
    Block.read ⟨size, leBytes w v ++ rest⟩ 0 w = .ok (leBytes w v) :=
  Block.read_head (leBytes_length w v) hfit

@[simp] theorem Block.read_int32Bytes_skip {x : Int} (h : 4 ≤ off) (hfit : off + n ≤ size) :
    Block.read ⟨size, int32Bytes x ++ rest⟩ off n = Block.read ⟨size - 4, rest⟩ (off - 4) n :=
  Block.read_leBytes_skip h hfit

@[simp] theorem Block.read_int32Bytes_head {x : Int} (hfit : 4 ≤ size) :
    Block.read ⟨size, int32Bytes x ++ rest⟩ 0 4 = .ok (int32Bytes x) :=
  Block.read_leBytes_head hfit

@[simp] theorem Block.read_int64Bytes_skip {x : Int} (h : 8 ≤ off) (hfit : off + n ≤ size) :
    Block.read ⟨size, int64Bytes x ++ rest⟩ off n = Block.read ⟨size - 8, rest⟩ (off - 8) n :=
  Block.read_leBytes_skip h hfit

@[simp] theorem Block.read_int64Bytes_head {x : Int} (hfit : 8 ≤ size) :
    Block.read ⟨size, int64Bytes x ++ rest⟩ 0 8 = .ok (int64Bytes x) :=
  Block.read_leBytes_head hfit

@[simp] theorem Block.read_leBytes_all {w v : Nat} (hfit : w ≤ size) :
    Block.read ⟨size, leBytes w v⟩ 0 w = .ok (leBytes w v) :=
  Block.read_all (leBytes_length w v) hfit

@[simp] theorem Block.read_int32Bytes_all {x : Int} (hfit : 4 ≤ size) :
    Block.read ⟨size, int32Bytes x⟩ 0 4 = .ok (int32Bytes x) :=
  Block.read_leBytes_all hfit

@[simp] theorem Block.read_int64Bytes_all {x : Int} (hfit : 8 ≤ size) :
    Block.read ⟨size, int64Bytes x⟩ 0 8 = .ok (int64Bytes x) :=
  Block.read_leBytes_all hfit

theorem Block.write_append {data src : Bytes} (hoff : data.length = off)
    (hfit : off + src.length ≤ size) : Block.write ⟨size, data⟩ off src = .ok ⟨size, data ++ src⟩ := by
  subst hoff; exact Block.write_end hfit

theorem Block.write_fresh {src : Bytes} (hfit : src.length ≤ size) :
    Block.write ⟨size, []⟩ 0 src = .ok ⟨size, src⟩ :=
  Block.write_append rfl (by simpa using hfit)

theorem Block.write_nul {data : Bytes} (hoff : data.length = off) (hfit : off < size) :
    Block.write ⟨size, data⟩ off [0] = .ok ⟨size, data ++ [0]⟩ :=
  Block.write_append hoff (by simpa using hfit)

theorem Block.read_split {l bs : Bytes} (h : Block.read ⟨l.length, l⟩ off n = .ok bs) :
    off + n ≤ l.length ∧ l.drop off = bs ++ l.drop (off + n) ∧ bs.length = n := by
  unfold Block.read at h
  split_ifs at h with hn
  cases h
  dsimp only at hn
  refine ⟨hn, ?_, by simp; omega⟩
  rw [← List.drop_drop, List.take_append_drop]

theorem Block.peek_split {l : Bytes} {w v : Nat} (h : Block.peek ⟨l.length, l⟩ off w = .ok v) :
    l.drop off = leBytes w v ++ l.drop (off + w) ∧ v < 256 ^ w := by
  obtain ⟨bs, hr, h⟩ := except_bind_eq_ok h
  obtain ⟨-, hs, hl⟩ := Block.read_split hr
  cases h
  exact ⟨by rwa [leBytes_leValue hl], hl ▸ leValue_lt bs⟩

theorem Block.write_end_ok {data src : Bytes} {b : Block} (h : Block.write ⟨size, data⟩ off src = .ok b)
    (hoff : data.length = off) : b = ⟨size, data ++ src⟩ ∧ off + src.length ≤ size := by
  unfold Block.write at h
  split_ifs at h with hn
  cases h
  exact ⟨by simp [storeAt_of_length hoff], hn⟩

end Fields

/-- glibc's `PTRDIFF_MAX`, above which `malloc` always fails. -/
def ptrdiffMax : Nat := 2^63 - 1

/-- `malloc(n)`: NULL above `PTRDIFF_MAX`; the model's heap never runs out below it. -/
def malloc (n : Nat) : Option Block := if n ≤ ptrdiffMax then some ⟨n, []⟩ else none

/-- `p = malloc(n); if (p == NULL) err(1, 0);` -/
def mallocOrExit (n : Nat) : Except Stop Block :=
  match malloc n with
  | some b => .ok b
  | none => .error .exit

theorem mallocOrExit_of_lt_two_pow {n : Nat} (h : n < 2^63) : mallocOrExit n = .ok ⟨n, []⟩ := by
  have : n ≤ ptrdiffMax := by unfold ptrdiffMax; omega
  simp [mallocOrExit, malloc, this]

theorem mallocOrExit_eq_ok {n : Nat} {b : Block} (h : mallocOrExit n = .ok b) : b = ⟨n, []⟩ := by
  unfold mallocOrExit malloc at h
  split_ifs at h
  cases h; rfl

/-- A C string: the bytes before its terminating NUL. -/
structure CString where
  bytes : Bytes
  nul_free : (0 : UInt8) ∉ bytes

/-- The C string a buffer holds: its bytes up to the first NUL. -/
def CString.ofBuffer (b : Bytes) : CString :=
  ⟨b.takeWhile (· ≠ 0), fun h => by simpa using List.mem_takeWhile_imp h⟩

theorem CString.ext {s t : CString} (h : s.bytes = t.bytes) : s = t := by
  cases s; cases t; cases h; rfl

instance : DecidableEq CString := fun s t =>
  decidable_of_iff (s.bytes = t.bytes) ⟨CString.ext, fun h => h ▸ rfl⟩

theorem CString.ofBuffer_append_nul (b : Bytes) : CString.ofBuffer (b ++ [0]) = CString.ofBuffer b := by
  apply CString.ext
  induction b with
  | nil => rfl
  | cons a b ih =>
    simp only [CString.ofBuffer, List.cons_append, List.takeWhile_cons] at ih ⊢
    split <;> simp_all

theorem CString.length_ofBuffer_le (b : Bytes) : (CString.ofBuffer b).bytes.length ≤ b.length :=
  (List.takeWhile_prefix _).length_le

@[simp] theorem CString.ofBuffer_append_zero (s : CString) (rest : Bytes) :
    CString.ofBuffer (s.bytes ++ 0 :: rest) = s := by
  apply CString.ext
  have hs : ∀ a ∈ s.bytes, (!decide (a = 0)) = true := fun a ha => by
    simpa using ne_of_mem_of_not_mem ha s.nul_free
  simp [CString.ofBuffer, List.takeWhile_append_of_pos hs]

end RemoteFileIO
