import Mathlib.Data.List.Basic
import Mathlib.Tactic.Ring

namespace HotStuffRs

abbrev Byte := Fin 256

abbrev U32 := Fin (2 ^ 32)

abbrev U64 := Fin (2 ^ 64)

instance Byte.neZero : NeZero 256 := ⟨by decide⟩

instance U32.neZero : NeZero (2 ^ 32) := ⟨by decide⟩

instance U64.neZero : NeZero (2 ^ 64) := ⟨by decide⟩

/-- For the arrays of 32 bytes, which are read as numbers. -/
instance neZero_two_pow_256 : NeZero (2 ^ 256) := ⟨by decide⟩

namespace Codec

/-! ## Little-endian numbers -/

/-- The `n` low bytes of `x`, lowest first. -/
def leBytes : Nat → Nat → List Byte
  | 0, _ => []
  | n + 1, x => Fin.ofNat 256 x :: leBytes n (x / 256)

def ofLeBytes : List Byte → Nat
  | [] => 0
  | b :: bs => b.val + 256 * ofLeBytes bs

@[simp] theorem length_leBytes (n x : Nat) : (leBytes n x).length = n := by
  induction n generalizing x with
  | zero => rfl
  | succ n ih => rw [leBytes, List.length_cons, ih]

theorem ofLeBytes_leBytes (n x : Nat) : ofLeBytes (leBytes n x) = x % 256 ^ n := by
  induction n generalizing x with
  | zero => rw [leBytes, ofLeBytes, Nat.pow_zero, Nat.mod_one]
  | succ n ih =>
    rw [leBytes, ofLeBytes, ih, Nat.pow_succ', Nat.mod_mul]
    rfl

theorem ofLeBytes_leBytes_of_lt {n x : Nat} (h : x < 256 ^ n) :
    ofLeBytes (leBytes n x) = x := by
  rw [ofLeBytes_leBytes, Nat.mod_eq_of_lt h]

/-! ## The codec class -/

/-- A binary format in the manner of Borsh.  Encoding fails on vectors too long
for their length prefix.  Decoding takes a value off the front of the input and
returns what follows it, so that trailing bytes are not an error. -/
class Borsh (α : Type) where
  encode : α → Option (List Byte)
  decode : List Byte → Option (α × List Byte)
  decode_encode {a : α} {bs : List Byte} :
    encode a = some bs → ∀ rest, decode (bs ++ rest) = some (a, rest)

namespace Borsh

/-- `deserialize`, which ignores the bytes after the value. -/
def deserialize {α : Type} [Borsh α] (bs : List Byte) : Option α := (decode bs).map Prod.fst

theorem deserialize_encode {α : Type} [Borsh α] {a : α} {bs : List Byte}
    (h : encode a = some bs) : deserialize bs = some a := by
  have hd := decode_encode h []
  rw [List.append_nil] at hd
  rw [deserialize, hd]
  rfl

/-- Where an encoding ends can be told from its bytes, whatever follows them. -/
theorem encode_append_inj {α : Type} [Borsh α] {a b : α} {as bs rest rest' : List Byte}
    (ha : encode a = some as) (hb : encode b = some bs) (h : as ++ rest = bs ++ rest') :
    a = b ∧ rest = rest' := by
  have hdecode := decode_encode ha rest
  rw [h, decode_encode hb rest', Option.some.injEq, Prod.mk.injEq] at hdecode
  exact ⟨hdecode.1.symm, hdecode.2.symm⟩

theorem encode_inj {α : Type} [Borsh α] {a b : α} {bs : List Byte} (ha : encode a = some bs)
    (hb : encode b = some bs) : a = b :=
  (encode_append_inj ha hb (Eq.refl (bs ++ []))).1

/-- A type whose values all take `n` bytes. -/
@[reducible] def fixed {α : Type} (n : Nat) (toBytes : α → List Byte) (ofBytes : List Byte → α)
    (hlen : ∀ a, (toBytes a).length = n) (hinv : ∀ a, ofBytes (toBytes a) = a) : Borsh α where
  encode a := some (toBytes a)
  decode bs := if n ≤ bs.length then some (ofBytes (bs.take n), bs.drop n) else none
  decode_encode {a bs} h rest := by
    obtain rfl := Option.some.inj h
    have hn := hlen a
    rw [if_pos (by rw [List.length_append]; omega), List.take_left' hn, List.drop_left' hn, hinv]

theorem ofNat_ofLeBytes {n m : Nat} [NeZero m] (h : m ≤ 256 ^ n) (x : Fin m) :
    Fin.ofNat m (ofLeBytes (leBytes n x.val)) = x := by
  rw [ofLeBytes_leBytes_of_lt (Nat.lt_of_lt_of_le x.isLt h)]
  exact Fin.ext (Nat.mod_eq_of_lt x.isLt)

instance : Borsh U32 :=
  fixed 4 (fun x => leBytes 4 x.val) (fun bs => Fin.ofNat _ (ofLeBytes bs))
    (fun x => length_leBytes 4 x.val) (ofNat_ofLeBytes (by norm_num))

instance : Borsh U64 :=
  fixed 8 (fun x => leBytes 8 x.val) (fun bs => Fin.ofNat _ (ofLeBytes bs))
    (fun x => length_leBytes 8 x.val) (ofNat_ofLeBytes (by norm_num))

/-- The bytes of an array of 32 bytes, read as one big-endian number. -/
def beBytes (n : Nat) (x : Nat) : List Byte := (leBytes n x).reverse

@[simp] theorem length_beBytes (n x : Nat) : (beBytes n x).length = n := by
  rw [beBytes, List.length_reverse, length_leBytes]

theorem ofNat_beBytes {n m : Nat} [NeZero m] (h : m ≤ 256 ^ n) (x : Fin m) :
    Fin.ofNat m (ofLeBytes (beBytes n x.val).reverse) = x := by
  rw [beBytes, List.reverse_reverse, ofNat_ofLeBytes h]

instance : Borsh (Fin (2 ^ 256)) :=
  fixed 32 (fun x => beBytes 32 x.val) (fun bs => Fin.ofNat _ (ofLeBytes bs.reverse))
    (fun x => length_beBytes 32 x.val) (ofNat_beBytes (by norm_num))

/-- A finite choice, written as its one-byte index. -/
@[reducible] def tagged {α : Type} (tag : α → Byte) (ofTag : Byte → Option α)
    (hinv : ∀ a, ofTag (tag a) = some a) : Borsh α where
  encode a := some [tag a]
  decode
    | [] => none
    | b :: rest => (ofTag b).map fun a => (a, rest)
  decode_encode {a bs} h rest := by
    obtain rfl := Option.some.inj h
    simp only [List.cons_append, List.nil_append, hinv, Option.map_some]

/-! ## Products, options and vectors -/

instance {α β : Type} [Borsh α] [Borsh β] : Borsh (α × β) where
  encode p := do
    let a ← encode p.1
    let b ← encode p.2
    return a ++ b
  decode bs := do
    let (a, bs) ← decode bs
    let (b, bs) ← decode bs
    return ((a, b), bs)
  decode_encode {p bs} h rest := by
    simp only [Option.pure_def, Option.bind_eq_bind, Option.bind_eq_some_iff,
      Option.some.injEq] at h
    obtain ⟨as, ha, bs', hb, rfl⟩ := h
    simp only [Option.pure_def, Option.bind_eq_bind, List.append_assoc, decode_encode ha,
      Option.bind_some, decode_encode hb, Prod.mk.eta]

instance {α : Type} [Borsh α] : Borsh (Option α) where
  encode
    | none => some [0]
    | some a => (encode a).map fun bs => 1 :: bs
  decode
    | [] => none
    | b :: bs =>
      if b = 0 then some (none, bs)
      else if b = 1 then (decode bs).map fun (a, rest) => (some a, rest)
      else none
  decode_encode {o bs} h rest := by
    cases o with
    | none =>
      obtain rfl := Option.some.inj h
      rfl
    | some a =>
      obtain ⟨as, ha, rfl⟩ := Option.map_eq_some_iff.mp h
      simp only [List.cons_append, decode_encode ha]
      rfl

def encodeList {α : Type} [Borsh α] : List α → Option (List Byte)
  | [] => some []
  | a :: as => do
    let bs ← encode a
    let rest ← encodeList as
    return bs ++ rest

def decodeList {α : Type} [Borsh α] : Nat → List Byte → Option (List α × List Byte)
  | 0, bs => some ([], bs)
  | n + 1, bs => do
    let (a, bs) ← decode bs
    let (as, bs) ← decodeList n bs
    return (a :: as, bs)

theorem decodeList_encodeList {α : Type} [Borsh α] {as : List α} {bs : List Byte}
    (h : encodeList as = some bs) (rest : List Byte) :
    decodeList as.length (bs ++ rest) = some (as, rest) := by
  induction as generalizing bs with
  | nil =>
    obtain rfl := Option.some.inj h
    rfl
  | cons a as ih =>
    simp only [encodeList, Option.pure_def, Option.bind_eq_bind, Option.bind_eq_some_iff,
      Option.some.injEq] at h
    obtain ⟨bs', ha, rest', hr, rfl⟩ := h
    simp only [List.length_cons, decodeList, Option.pure_def, Option.bind_eq_bind,
      List.append_assoc, decode_encode ha, ih hr, Option.bind_some]

/-- A vector is its length as a `u32`, then its elements. -/
instance {α : Type} [Borsh α] : Borsh (List α) where
  encode as :=
    if as.length < 2 ^ 32 then (encodeList as).map fun bs => leBytes 4 as.length ++ bs else none
  decode bs := do
    let (n, bs) ← @decode U32 _ bs
    decodeList n.val bs
  decode_encode {as bs} h rest := by
    split at h
    · rename_i hlen
      obtain ⟨bs', hb, rfl⟩ := Option.map_eq_some_iff.mp h
      have hn : encode (⟨as.length, hlen⟩ : U32) = some (leBytes 4 as.length) := rfl
      simp only [Option.bind_eq_bind, List.append_assoc, decode_encode hn, Option.bind_some,
        decodeList_encodeList hb]
    · cases h

/-- A type read and written through another one. -/
@[reducible] def ofEquiv {α β : Type} [Borsh β] (f : α → β) (g : β → α) (hinv : ∀ a, g (f a) = a) :
    Borsh α where
  encode a := encode (f a)
  decode bs := (decode bs).map fun (b, rest) => (g b, rest)
  decode_encode {a bs} h rest := by
    simp only [decode_encode h, Option.map_some, hinv]

end Borsh

end Codec
end HotStuffRs
