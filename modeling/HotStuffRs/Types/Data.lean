import HotStuffRs.Codec.Borsh

namespace HotStuffRs

abbrev ChainID := U64

abbrev BlockHeight := U64

abbrev ViewNumber := U64

def ViewNumber.init : ViewNumber := 0

abbrev Power := U64

/-- A `u128` in the source.  It only ever holds sums of the powers of the members
of one validator set, which stay far below `2 ^ 128`; the one multiplication made
with it is checked, and `quorum` keeps that check. -/
abbrev TotalPower := Nat

/-- The 32 bytes of a hash, read as one big-endian number. -/
abbrev CryptoHash := Fin (2 ^ 256)

/-- The 32 bytes of a public key, read as one big-endian number, so that the
order of the numbers is the order of the bytes. -/
abbrev VerifyingKey := Fin (2 ^ 256)

instance (priority := 1100) VerifyingKey.transOrd : Std.TransOrd VerifyingKey := inferInstance

instance VerifyingKey.lawfulEqOrd : Std.LawfulEqOrd VerifyingKey := inferInstance

instance VerifyingKey.lawfulBEq : LawfulBEq VerifyingKey := inferInstance

/-- The two halves of the 64 bytes of a signature. -/
abbrev SignatureBytes := Fin (2 ^ 256) × Fin (2 ^ 256)

abbrev Datum := List Byte

instance (priority := 1100) Datum.transOrd : Std.TransOrd Datum := inferInstance

abbrev Data := List Datum

abbrev DataLen := U32

/-- `self.0.len() as u32`. -/
def Data.len (data : Data) : DataLen := Fin.ofNat (2 ^ 32) data.length

abbrev ChildrenList := List CryptoHash

abbrev SignatureSet := List (Option SignatureBytes)

/-- A `HashMap`, up to the order of its entries. -/
abbrev HashMap (K V : Type) [Ord K] := Std.ExtTreeMap K V compare

/-- Entries with distinct keys are all there once they have been inserted. -/
theorem getElem?_foldl_insert_of_mem {K V : Type} [Ord K] [Std.TransOrd K] [Std.LawfulEqOrd K]
    [BEq K] [LawfulBEq K] {l : List (K × V)} (hnodup : (l.map Prod.fst).Nodup) (m : HashMap K V)
    {k : K} {v : V} (h : (k, v) ∈ l) : (l.foldl (fun m entry => m.insert entry.1 entry.2) m)[k]? = some v := by
  have hmany : l.foldl (fun m entry => m.insert entry.1 entry.2) m = m.insertMany l :=
    Std.ExtTreeMap.insertMany_list_eq_foldl.symm
  have hdistinct : l.Pairwise fun a b => ¬compare a.1 b.1 = .eq := by
    apply (List.pairwise_map.mp hnodup).imp
    intro a b hne heq
    exact hne (Std.compare_eq_iff_eq.mp heq)
  rw [hmany]
  exact Std.ExtTreeMap.getElem?_insertMany_list_of_mem Std.compare_self hdistinct h

/-- A `HashSet`, up to the order of its elements. -/
abbrev HashSet (K : Type) [Ord K] := Std.ExtTreeSet K compare

/-- A set of updates to a key-value map. -/
structure UpdateSet (K V : Type) [Ord K] where
  inserts : HashMap K V
  deletes : HashSet K

namespace UpdateSet

variable {K V : Type} [Ord K] [Std.TransOrd K]

instance [Std.LawfulEqOrd K] [BEq K] [LawfulBEq K] [DecidableEq V] : DecidableEq (UpdateSet K V) :=
  fun a b => decidable_of_iff (a.inserts = b.inserts ∧ a.deletes = b.deletes) <| by
    cases a; cases b; simp

def new : UpdateSet K V := { inserts := ∅, deletes := ∅ }

def insert (u : UpdateSet K V) (key : K) (value : V) : UpdateSet K V :=
  { inserts := u.inserts.insert key value, deletes := u.deletes.erase key }

def delete (u : UpdateSet K V) (key : K) : UpdateSet K V :=
  { inserts := u.inserts.erase key, deletes := u.deletes.insert key }

def getInsert (u : UpdateSet K V) (key : K) : Option V := u.inserts[key]?

def containsDelete (u : UpdateSet K V) (key : K) : Bool := u.deletes.contains key

end UpdateSet

abbrev AppStateUpdates := UpdateSet (List Byte) (List Byte)

abbrev ValidatorSetUpdates := UpdateSet VerifyingKey Power

end HotStuffRs
