import HotStuffRs.Codec.Borsh

namespace HotStuffRs
namespace Codec
namespace Borsh

instance : Borsh Byte :=
  fixed 1 (fun b => [b]) (fun bs => bs.headD 0) (fun _ => rfl) fun _ => rfl

instance : Borsh Bool :=
  tagged (fun b => if b then 1 else 0) (fun b => [false, true][b.val]?) fun b => by cases b <;> rfl

variable {K V : Type} [Ord K] [Std.TransOrd K] [Std.LawfulEqOrd K]

theorem ofList_toList_map [BEq K] [LawfulBEq K] (m : Std.ExtTreeMap K V compare) :
    Std.ExtTreeMap.ofList m.toList compare = m := by
  apply Std.ExtTreeMap.ext_getElem?
  intro k
  cases h : m[k]? with
  | some v =>
    exact Std.ExtTreeMap.getElem?_ofList_of_mem (Std.compare_self)
      Std.ExtTreeMap.distinct_keys_toList
      (Std.ExtTreeMap.mem_toList_iff_getElem?_eq_some.mpr h)
  | none =>
    apply Std.ExtTreeMap.getElem?_ofList_of_contains_eq_false
    rw [← Bool.not_eq_true, List.contains_iff_mem, List.mem_map]
    rintro ⟨⟨k', v⟩, hmem, rfl⟩
    rw [Std.ExtTreeMap.mem_toList_iff_getElem?_eq_some] at hmem
    cases h.symm.trans hmem

theorem ofList_toList_set [BEq K] [LawfulBEq K] (m : Std.ExtTreeSet K compare) :
    Std.ExtTreeSet.ofList m.toList compare = m := by
  apply Std.ExtTreeSet.ext_mem
  intro k
  rw [Std.ExtTreeSet.mem_ofList, List.contains_iff_mem, Std.ExtTreeSet.mem_toList]

/-- Maps and sets are written as vectors sorted by key. -/
instance [BEq K] [LawfulBEq K] [Borsh K] [Borsh V] : Borsh (Std.ExtTreeMap K V compare) :=
  ofEquiv (fun m => m.toList) (fun l => Std.ExtTreeMap.ofList l compare) ofList_toList_map

instance [BEq K] [LawfulBEq K] [Borsh K] : Borsh (Std.ExtTreeSet K compare) :=
  ofEquiv (fun m => m.toList) (fun l => Std.ExtTreeSet.ofList l compare) ofList_toList_set

end Borsh
end Codec
end HotStuffRs
