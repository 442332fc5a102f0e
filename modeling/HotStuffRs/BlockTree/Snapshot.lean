import HotStuffRs.BlockTree.ChainIndex

/-
The blocks that a snapshot has for syncing.

Committed blocks are read upwards by height, speculative ones downwards from the newest block.
The two walks meet only where the newest block is above the highest committed one.
-/

namespace HotStuffRs
namespace BlockTree

open Forest

/-- Push blocks to `res` until it has `limit` of them, and tell whether it has.  The length is
compared only after a push. -/
def pushUntil (limit : U32) : List Block → List Block → Bool × List Block
  | res, [] => (false, res)
  | res, block :: rest =>
    if (res ++ [block]).length = limit.val then (true, res ++ [block])
    else pushUntil limit (res ++ [block]) rest

section

variable (s : BlockTree)

/-- The committed blocks from the height `cursor` on, pushed to `res` until it has `limit`
blocks, and whether it has. -/
def committedFrom (limit : U32) : Nat → BlockHeight → List Block → Result (Bool × List Block)
  | 0, _, _ => throw .outOfFuel
  | fuel + 1, cursor, res => do
    match ← s.kv.blockAtHeight cursor with
    | none => return (false, res)
    | some blockHash =>
      match ← s.kv.block blockHash with
      | none => throw (.error (.blockExpectedButNotFound blockHash))
      | some block =>
        let cursor ← U64.add cursor 1
        if (res ++ [block]).length = limit.val then return (true, res ++ [block])
        else committedFrom limit fuel cursor (res ++ [block])

/-- The blocks from `cursor` down to the first whose justify is about the highest committed
block, or is the Genesis PC. -/
def blocksFromCursor : Nat → CryptoHash → Result (List Block)
  | 0, _ => throw .outOfFuel
  | fuel + 1, cursor => do
    match ← s.kv.block cursor with
    | none => throw (.error (.blockExpectedButNotFound cursor))
    | some block =>
      let highestCommittedBlock ← s.kv.highestCommittedBlock
      if highestCommittedBlock = some block.justify.block ∨ block.justify.isGenesisPc then
        return [block]
      else
        let rest ← blocksFromCursor fuel block.justify.block
        return block :: rest

def blocksFromNewestToCommitted (fuel : Nat) : Result (List Block) := do
  match ← s.kv.newestBlock with
  | none => return []
  | some newestBlock => blocksFromCursor s fuel newestBlock

def blocksFromHeightToNewest (fuel : Nat) (height : BlockHeight) (limit : U32) :
    Result (List Block) := do
  let (full, res) ← committedFrom s limit fuel height []
  if full then return res
  else
    let speculativeBlocks ← blocksFromNewestToCommitted s fuel
    return (pushUntil limit res speculativeBlocks.reverse).2

end

variable {s : BlockTree}

/-- The newest block is above the highest committed one. -/
def NewestAbove (s : BlockTree) : Prop :=
  ∃ newest highest, s .newestBlock = some newest ∧ s .highestCommittedBlock = some highest ∧
    newest ≠ highest ∧ Extends s.up newest highest

/-- At most `limit` blocks, each once, the first of the given height, and each justified by the
one before. -/
structure ProperChain (height : BlockHeight) (limit : U32) (blocks : List Block) : Prop where
  length : blocks.length ≤ limit.val
  nodup : (blocks.map Block.hash).Nodup
  first : ∀ block, blocks.head? = some block → block.height = height
  linked : blocks.IsChain fun p c => c.justify.block = p.hash

/-- Up to `limit` blocks are pushed, or all of them if there were as many before. -/
theorem pushUntil_eq (limit : U32) (res blocks : List Block) : pushUntil limit res blocks =
    (decide (res.length < limit.val ∧ limit.val ≤ res.length + blocks.length),
      res ++ if res.length < limit.val then blocks.take (limit.val - res.length) else blocks) := by
  induction blocks generalizing res with
  | nil => simp [pushUntil]
  | cons block rest ih =>
    rw [pushUntil]
    by_cases hfull : (res ++ [block]).length = limit.val
    · rw [if_pos hfull]
      rw [List.length_append, List.length_singleton] at hfull
      have hone : limit.val - res.length = 1 := by omega
      have hlt : res.length < limit.val := by omega
      have hle : limit.val ≤ res.length + (rest.length + 1) := by omega
      simp [hlt, hle, hone]
    · rw [if_neg hfull, ih]
      rw [List.length_append, List.length_singleton] at hfull ⊢
      by_cases hlt : res.length < limit.val
      · have hlt' : res.length + 1 < limit.val := by omega
        obtain ⟨m, hm⟩ : ∃ m, limit.val - res.length = m + 1 := ⟨limit.val - res.length - 1, by omega⟩
        have hm' : limit.val - (res.length + 1) = m := by omega
        simp only [hlt, hlt', true_and, if_true, hm, hm', List.take_succ_cons,
          List.append_assoc, List.singleton_append, List.length_cons, Prod.mk.injEq, and_true]
        congr 1
        simp only [eq_iff_iff]
        omega
      · have hnot : ¬res.length + 1 < limit.val := by omega
        simp [hlt, hnot]

/-! ## Blocks as the tree has them -/

/-- `blocks` are as the tree has them. -/
def Reads (s : BlockTree) (blocks : List Block) : Prop :=
  ∀ block ∈ blocks, s.kv.block block.hash = .ok (some block)

theorem fields_of_block {b : CryptoHash} {block : Block} (h : s.kv.block b = .ok (some block)) :
    block.hash = b ∧ s (.blockHeight b) = some block.height ∧
      s (.blockJustify b) = some block.justify := by
  simp only [KVGet.block, kv_blockHeight, Result.ok_bind] at h
  cases hheight : s (.blockHeight b) with
  | none => simp [hheight] at h
  | some height =>
    simp only [hheight, Result.bind_eq_ok, kv_blockJustify_eq_ok] at h
    obtain ⟨justify, hjustify, dataHash, -, data, -, h⟩ := h
    cases dataHash with
    | none => cases h
    | some dataHash =>
      cases data with
      | none => cases h
      | some data =>
        simp only [Result.pure_eq, Except.ok.injEq, Option.some.injEq] at h
        subst h
        exact ⟨rfl, rfl, hjustify⟩

theorem exists_reads (wf : s.WellFormed) (bs : List CryptoHash) (hbs : ∀ b ∈ bs, s.Stored b) :
    ∃ blocks, Reads s blocks ∧ blocks.map Block.hash = bs := by
  induction bs with
  | nil => exact ⟨[], nofun, rfl⟩
  | cons b bs ih =>
    obtain ⟨blocks, hreads, hmap⟩ := ih fun b' hb' => hbs b' (List.mem_cons_of_mem _ hb')
    obtain ⟨block, hblock, -⟩ := wf.exists_block (hbs b List.mem_cons_self)
    obtain ⟨hhash, -, -⟩ := fields_of_block hblock
    refine ⟨block :: blocks, fun block' hblock' => ?_, by rw [List.map_cons, hhash, hmap]⟩
    rcases List.mem_cons.mp hblock' with rfl | hblock'
    · rw [hhash]
      exact hblock
    · exact hreads block' hblock'

/-- A chain of blocks is a chain of hashes in the tree. -/
theorem Reads.properChain_iff {blocks : List Block} (h : Reads s blocks) {height : BlockHeight}
    {limit : U32} : ProperChain height limit blocks ↔
      (blocks.map Block.hash).length ≤ limit.val ∧ (blocks.map Block.hash).Nodup ∧
      (∀ b, (blocks.map Block.hash).head? = some b → s (.blockHeight b) = some height) ∧
      (blocks.map Block.hash).IsChain fun p c => s.up c = some p := by
  have hup : ∀ {c p : Block}, c ∈ blocks → (s.up c.hash = some p.hash ↔ c.justify.block = p.hash) := by
    intro c p hc
    obtain ⟨-, -, hjustify⟩ := fields_of_block (h c hc)
    rw [up, hjustify, Option.map_some, Option.some.injEq]
  have hfirst : (∀ b, (blocks.map Block.hash).head? = some b → s (.blockHeight b) = some height) ↔
      ∀ block, blocks.head? = some block → block.height = height := by
    cases blocks with
    | nil => simp
    | cons block rest =>
      obtain ⟨-, hheight, -⟩ := fields_of_block (h block List.mem_cons_self)
      simp [hheight]
  have hlinked : ((blocks.map Block.hash).IsChain fun p c => s.up c = some p) ↔
      blocks.IsChain fun p c => c.justify.block = p.hash := by
    rw [List.isChain_map]
    constructor
    · exact fun hchain => hchain.imp_of_mem_imp fun _ _ _ hc hlink => (hup hc).mp hlink
    · exact fun hchain => hchain.imp_of_mem_imp fun _ _ _ hc hlink => (hup hc).mpr hlink
  rw [hfirst, hlinked, List.length_map]
  constructor
  · rintro ⟨hlength, hnodup, hfirst, hlinked⟩
    exact ⟨hlength, hnodup, hfirst, hlinked⟩
  · rintro ⟨hlength, hnodup, hfirst, hlinked⟩
    exact ⟨hlength, hnodup, hfirst, hlinked⟩

/-! ## The committed blocks -/

/-- The blocks of the chain from the height `cursor` on are pushed. -/
theorem IndexedChain.committedFrom_eq {cs : List CryptoHash} (h : s.IndexedChain cs)
    (hlength : cs.length < 2 ^ 64) {limit : U32} {blocks res : List Block} {cursor : BlockHeight}
    (hreads : Reads s blocks) (hblocks : blocks.map Block.hash = cs.drop cursor.val) {fuel : Nat}
    (hfuel : blocks.length < fuel) :
    s.committedFrom limit fuel cursor res = .ok (pushUntil limit res blocks) := by
  induction blocks generalizing cursor res fuel with
  | nil =>
    obtain ⟨fuel, rfl⟩ := Nat.exists_eq_succ_of_ne_zero (Nat.ne_of_gt hfuel)
    have hnone : s (.blockAtHeight cursor) = none := by
      rw [h.blockAtHeight_eq, List.getElem?_eq_none_iff]
      exact List.drop_eq_nil_iff.mp hblocks.symm
    simp [committedFrom, hnone, pushUntil]
  | cons block rest ih =>
    obtain ⟨fuel, rfl⟩ := Nat.exists_eq_succ_of_ne_zero (Nat.ne_of_gt (Nat.zero_lt_of_lt hfuel))
    rw [List.map_cons] at hblocks
    have hlt : cursor.val < cs.length := by
      by_contra hle
      rw [List.drop_eq_nil_iff.mpr (not_lt.mp hle)] at hblocks
      cases hblocks
    rw [List.drop_eq_getElem_cons hlt] at hblocks
    obtain ⟨hhash, hrest⟩ := List.cons.inj hblocks
    have hget : s (.blockAtHeight cursor) = some block.hash := by
      rw [h.blockAtHeight_eq, List.getElem?_eq_getElem hlt, hhash]
    have hadd : ∃ next : U64, U64.add cursor 1 = .ok next ∧ next.val = cursor.val + 1 :=
      ⟨⟨cursor.val + 1, by omega⟩, U64.add_eq_ok.mpr rfl, rfl⟩
    obtain ⟨next, hadd, hnext⟩ := hadd
    have hih := @ih (res ++ [block]) next
      (fun block' hblock' => hreads block' (List.mem_cons_of_mem _ hblock')) (by rw [hrest, hnext])
      fuel (Nat.lt_of_succ_lt_succ hfuel)
    simp only [committedFrom, kv_blockAtHeight, hget, Result.ok_bind,
      hreads block List.mem_cons_self, hadd, hih, pushUntil]
    split <;> rfl

/-! ## The speculative blocks -/

/-- `us` are the blocks from `b` on, newest first, down to the first whose justify is about the
highest committed block, or is the Genesis PC. -/
inductive Descent (s : BlockTree) : CryptoHash → List CryptoHash → Prop
  | last {b j} (hj : s (.blockJustify b) = some j)
    (hstop : s .highestCommittedBlock = some j.block ∨ j = .genesisPc) : Descent s b [b]
  | step {b j us} (hj : s (.blockJustify b) = some j)
    (hgo : ¬(s .highestCommittedBlock = some j.block ∨ j = .genesisPc))
    (rest : Descent s j.block us) : Descent s b (b :: us)

theorem exists_descent (wf : s.WellFormed) {b : CryptoHash} (hb : s.Stored b) :
    ∃ us, Descent s b us := by
  induction b using wf.acyclic.induction with
  | _ b ih =>
    obtain ⟨j, hj⟩ := Option.isSome_iff_exists.mp hb
    by_cases hstop : s .highestCommittedBlock = some j.block ∨ j = .genesisPc
    · exact ⟨[b], .last hj hstop⟩
    · have hparent := (wf.parent b j hj).resolve_left fun hgenesis => hstop (.inr hgenesis)
      obtain ⟨us, hrest⟩ := ih j.block (up_eq_some.mpr ⟨j, hj, rfl⟩) hparent
      exact ⟨b :: us, .step hj hstop hrest⟩

namespace Descent

variable {b : CryptoHash} {us : List CryptoHash}

theorem blocksFromCursor (wf : s.WellFormed) (h : Descent s b us) :
    ∃ blocks, Reads s blocks ∧ blocks.map Block.hash = us ∧
      ∀ fuel ≥ us.length, s.blocksFromCursor fuel b = .ok blocks := by
  induction h with
  | @last b j hj hstop =>
    obtain ⟨block, hblock, hjustify⟩ := wf.exists_block (by rw [Stored, hj]; rfl : s.Stored b)
    obtain ⟨hhash, -, -⟩ := fields_of_block hblock
    obtain rfl := Option.some.inj (hj.symm.trans hjustify)
    refine ⟨[block], fun block' hblock' => ?_, by simp [hhash], fun fuel hfuel => ?_⟩
    · obtain rfl := List.mem_singleton.mp hblock'
      rw [hhash]
      exact hblock
    · obtain ⟨fuel, rfl⟩ := Nat.exists_eq_succ_of_ne_zero (Nat.ne_of_gt hfuel)
      simp [BlockTree.blocksFromCursor, hblock, hstop]
  | @step b j us hj hgo rest ih =>
    obtain ⟨blocks, hreads, hmap, hrest⟩ := ih
    obtain ⟨block, hblock, hjustify⟩ := wf.exists_block (by rw [Stored, hj]; rfl : s.Stored b)
    obtain ⟨hhash, -, -⟩ := fields_of_block hblock
    obtain rfl := Option.some.inj (hj.symm.trans hjustify)
    refine ⟨block :: blocks, fun block' hblock' => ?_, by simp [hhash, hmap], fun fuel hfuel => ?_⟩
    · rcases List.mem_cons.mp hblock' with rfl | hblock'
      · rw [hhash]
        exact hblock
      · exact hreads block' hblock'
    · obtain ⟨fuel, rfl⟩ :=
        Nat.exists_eq_succ_of_ne_zero (Nat.ne_of_gt (Nat.lt_of_lt_of_le (Nat.succ_pos _) hfuel))
      simp [BlockTree.blocksFromCursor, hblock, hgo, hrest fuel (Nat.le_of_succ_le_succ hfuel)]

theorem eq_cons (h : Descent s b us) : ∃ rest, us = b :: rest := by
  cases h with
  | last => exact ⟨_, rfl⟩
  | step => exact ⟨_, rfl⟩

theorem isChain (h : Descent s b us) : us.IsChain fun c p => s.up c = some p := by
  induction h with
  | last => exact .singleton _
  | @step b j us hj _ rest ih =>
    obtain ⟨rest', rfl⟩ := rest.eq_cons
    exact .cons_cons (up_eq_some.mpr ⟨j, hj, rfl⟩) ih

variable {highest : CryptoHash} (hhighest : s .highestCommittedBlock = some highest)
include hhighest

/-- From above the highest committed block, the descent ends at a child of it. -/
theorem up_last (wf : s.WellFormed) (hstored : s.Stored highest) (h : Descent s b us)
    (hext : Extends s.up b highest) (hne : b ≠ highest) {x : CryptoHash}
    (hx : us.getLast? = some x) : s.up x = some highest := by
  induction h with
  | @last b j hj hstop =>
    obtain rfl : b = x := by simpa using hx
    obtain ⟨p, hp, hpext⟩ := (Extends.iff_parent.mp hext).resolve_left hne
    rcases hstop with hstop | rfl
    · rw [hhighest, Option.some.injEq] at hstop
      exact up_eq_some.mpr ⟨j, hj, hstop.symm⟩
    · have hzero : p = 0 := Option.some.inj (hp.symm.trans (up_eq_some.mpr ⟨_, hj, rfl⟩))
      rcases Extends.iff_parent.mp hpext with rfl | ⟨q, hq, -⟩
      · exact absurd (hzero ▸ hstored) wf.genesis
      · exact absurd (hzero ▸ Stored.of_up hq) wf.genesis
  | @step b j us hj hgo rest ih =>
    obtain ⟨p, hp, hpext⟩ := (Extends.iff_parent.mp hext).resolve_left hne
    obtain rfl : p = j.block := Option.some.inj (hp.symm.trans (up_eq_some.mpr ⟨j, hj, rfl⟩))
    refine ih hpext (fun heq => hgo (.inl (by rw [hhighest, heq]))) ?_
    obtain ⟨rest', rfl⟩ := rest.eq_cons
    exact hx

/-- From anywhere else, it ends at a child of the genesis placeholder. -/
theorem justify_last (wf : s.WellFormed) (h : Descent s b us)
    (hnot : ¬(b ≠ highest ∧ Extends s.up b highest)) {x : CryptoHash}
    (hx : us.getLast? = some x) : s (.blockJustify x) = some .genesisPc := by
  induction h with
  | @last b j hj hstop =>
    obtain rfl : b = x := by simpa using hx
    rcases hstop with hstop | rfl
    · rw [hhighest, Option.some.injEq] at hstop
      have hup : s.up b = some highest := up_eq_some.mpr ⟨j, hj, hstop.symm⟩
      refine absurd ⟨?_, .parent hup⟩ hnot
      rintro rfl
      exact wf.acyclic.not_extends_parent hup (.refl b)
    · exact hj
  | @step b j us hj hgo rest ih =>
    have hup : s.up b = some j.block := up_eq_some.mpr ⟨j, hj, rfl⟩
    refine ih ?_ ?_
    · rintro ⟨-, hext⟩
      refine hnot ⟨?_, .of_parent hup hext⟩
      rintro rfl
      exact wf.acyclic.not_extends_parent hup hext
    · obtain ⟨rest', rfl⟩ := rest.eq_cons
      exact hx

end Descent

/-! ## The two walks together -/

/-- A chain of links has no repetitions. -/
theorem WellFormed.nodup_of_isChain (wf : s.WellFormed) {bs : List CryptoHash}
    (h : bs.IsChain fun p c => s.up c = some p) : bs.Nodup := by
  induction bs with
  | nil => exact .nil
  | cons b bs ih =>
    refine List.nodup_cons.mpr ⟨fun hmem => ?_, ih h.of_cons⟩
    cases bs with
    | nil => cases hmem
    | cons c bs =>
      have hup : s.up c = some b := (List.isChain_cons_cons.mp h).1
      have hext : Extends s.up b c := .of_isChain h.of_cons hmem
      exact wf.acyclic.not_extends_parent hup hext

namespace IndexedChain

variable {cs : List CryptoHash} (h : s.IndexedChain cs)
include h

/-- The chain from `height` on begins with a block of this height. -/
theorem height_head?_drop {height : BlockHeight} {b : CryptoHash}
    (hb : (cs.drop height.val).head? = some b) : s (.blockHeight b) = some height := by
  rw [List.head?_drop, List.getElem?_eq_some_iff] at hb
  obtain ⟨hlt, rfl⟩ := hb
  obtain ⟨height', hheight, hval⟩ := h.height_getElem height.val hlt
  rw [hheight, Fin.ext hval]

theorem exists_reads_drop (height : BlockHeight) :
    ∃ blocks, Reads s blocks ∧ blocks.map Block.hash = cs.drop height.val :=
  exists_reads h.wf _ fun b hb => h.stored b (List.mem_of_mem_drop hb)

variable {height : BlockHeight}

/-- What `Descent` adds above the highest committed block goes on where the chain ends. -/
theorem properChain_of_above {highest newest : CryptoHash}
    (hhighest : s .highestCommittedBlock = some highest) (hheight : height.val ≤ cs.length)
    (hext : Extends s.up newest highest) (hne : newest ≠ highest) {us : List CryptoHash}
    (hdescent : Descent s newest us) (n : Nat) :
    (cs.drop height.val ++ us.reverse.take n).IsChain (fun p c => s.up c = some p) ∧
      ∀ b, (cs.drop height.val ++ us.reverse.take n).head? = some b →
        s (.blockHeight b) = some height := by
  have hlast : cs.getLast? = some highest := h.highest.symm.trans hhighest
  have hstored : s.Stored highest := h.stored highest (List.mem_of_getLast? hlast)
  have hhead : ∀ x, (us.reverse.take n).head? = some x → s.up x = some highest := by
    intro x hx
    rw [List.head?_take] at hx
    split at hx
    · cases hx
    · rw [List.head?_reverse] at hx
      exact hdescent.up_last hhighest h.wf hstored hext hne hx
  constructor
  · refine List.isChain_append.mpr ⟨h.linked.drop _, ?_, fun p hp c hc => ?_⟩
    · exact (List.isChain_reverse.mpr hdescent.isChain).take n
    · rw [hhead c hc]
      rw [List.getLast?_drop] at hp
      split at hp
      · cases hp
      · exact congrArg some (Option.some.inj (hlast.symm.trans hp))
  · intro b hb
    cases hdrop : cs.drop height.val with
    | cons c rest =>
      rw [hdrop] at hb
      refine h.height_head?_drop ?_
      rw [hdrop]
      exact hb
    | nil =>
      rw [hdrop, List.nil_append] at hb
      obtain ⟨parentHeight, hparent⟩ := h.wf.exists_height hstored
      have hcount := h.length_eq hhighest hparent
      have hup := hhead b hb
      obtain ⟨childHeight, hchild⟩ := h.wf.exists_height (.of_up hup)
      have hsucc := h.heights.of_up h.wf hup hchild hparent
      have hle := List.drop_eq_nil_iff.mp hdrop
      rw [hchild]
      exact congrArg some (Fin.ext (by omega))

/-- What is added from below the highest committed block, or beside it, does not go on there:
it begins with a child of the genesis placeholder. -/
theorem not_properChain_of_not_above {highest newest : CryptoHash}
    (hhighest : s .highestCommittedBlock = some highest) (hheight : height.val ≤ cs.length)
    (hnot : ¬(newest ≠ highest ∧ Extends s.up newest highest)) {us : List CryptoHash}
    (hdescent : Descent s newest us) {n : Nat} (hpos : 0 < n)
    (hfirst : ∀ b, (cs.drop height.val ++ us.reverse.take n).head? = some b →
      s (.blockHeight b) = some height) :
    ¬(cs.drop height.val ++ us.reverse.take n).IsChain fun p c => s.up c = some p := by
  intro hchain
  have hlast : cs.getLast? = some highest := h.highest.symm.trans hhighest
  have hstored : s.Stored highest := h.stored highest (List.mem_of_getLast? hlast)
  obtain ⟨x, hx⟩ : ∃ x, us.getLast? = some x := by
    obtain ⟨rest, rfl⟩ := hdescent.eq_cons
    exact ⟨_, List.getLast?_cons⟩
  have hj := hdescent.justify_last hhighest h.wf hnot hx
  have hhead : (us.reverse.take n).head? = some x := by
    rw [List.head?_take, if_neg (Nat.ne_of_gt hpos), List.head?_reverse, hx]
  by_cases hdrop : cs.drop height.val = []
  · rw [hdrop, List.nil_append] at hfirst
    have hzero := h.heights.of_genesisPc hj (hfirst x hhead)
    have hle := List.drop_eq_nil_iff.mp hdrop
    have hnil : cs = [] := List.eq_nil_of_length_eq_zero (by omega)
    rw [hnil] at hlast
    cases hlast
  · have hend : (cs.drop height.val).getLast? = some highest := by
      rw [List.getLast?_drop, if_neg (fun hle => hdrop (List.drop_eq_nil_iff.mpr hle)), hlast]
    have hup : s.up x = some highest := (List.isChain_append.mp hchain).2.2 _ hend x hhead
    have hroot : s.up x = some 0 := up_eq_some.mpr ⟨_, hj, rfl⟩
    have hzero : highest = 0 := Option.some.inj (hup.symm.trans hroot)
    rw [hzero] at hstored
    exact h.wf.genesis hstored

variable (hlength : cs.length < 2 ^ 64) {limit : U32}
include hlength

/-- A limit that the committed blocks reach is served by them. -/
theorem serves_of_full (hpos : 0 < limit.val) (hle : height.val + limit.val ≤ cs.length) :
    ∃ blocks, Result.Eventually (fun fuel => s.blocksFromHeightToNewest fuel height limit) blocks ∧
      ProperChain height limit blocks := by
  obtain ⟨blocks, hreads, hmap⟩ := h.exists_reads_drop height
  have hcount : blocks.length = cs.length - height.val := by
    rw [← List.length_map Block.hash, hmap, List.length_drop]
  have hpush : pushUntil limit [] blocks = (true, blocks.take limit.val) := by
    have hle' : limit.val ≤ blocks.length := by omega
    simp [pushUntil_eq, hpos, hle']
  have hserved : ∀ fuel ≥ blocks.length + 1,
      s.blocksFromHeightToNewest fuel height limit = .ok (blocks.take limit.val) := by
    intro fuel hfuel
    rw [blocksFromHeightToNewest, h.committedFrom_eq hlength hreads hmap hfuel, hpush]
    rfl
  have hreads' : Reads s (blocks.take limit.val) :=
    fun block hblock => hreads block (List.mem_of_mem_take hblock)
  have hmap' : (blocks.take limit.val).map Block.hash = (cs.drop height.val).take limit.val := by
    rw [List.map_take, hmap]
  have hchain : ((cs.drop height.val).take limit.val).IsChain fun p c => s.up c = some p :=
    (h.linked.drop height.val).take limit.val
  refine ⟨blocks.take limit.val, ⟨blocks.length + 1, hserved⟩, hreads'.properChain_iff.mpr ?_⟩
  rw [hmap']
  refine ⟨List.length_take_le _ _, h.wf.nodup_of_isChain hchain, fun b hb => ?_, hchain⟩
  refine h.height_head?_drop ?_
  rwa [List.head?_take, if_neg (Nat.ne_of_gt hpos)] at hb

/-- Otherwise the blocks down from the newest one follow. -/
theorem eventually_of_descent (hnot : ¬(0 < limit.val ∧ height.val + limit.val ≤ cs.length))
    {newest : CryptoHash} (hnewest : s .newestBlock = some newest) {us : List CryptoHash}
    (hdescent : Descent s newest us) : ∃ blocks, Reads s blocks ∧
      blocks.map Block.hash = cs.drop height.val ++
        (if cs.length - height.val < limit.val then
          us.reverse.take (limit.val - (cs.length - height.val)) else us.reverse) ∧
      Result.Eventually (fun fuel => s.blocksFromHeightToNewest fuel height limit) blocks := by
  obtain ⟨blocks, hreads, hmap⟩ := h.exists_reads_drop height
  obtain ⟨speculative, hspeculative, hmap', hdown⟩ := hdescent.blocksFromCursor h.wf
  have hcount : blocks.length = cs.length - height.val := by
    rw [← List.length_map Block.hash, hmap, List.length_drop]
  have hpush : pushUntil limit [] blocks = (false, blocks) := by
    have hnot' : ¬(0 < limit.val ∧ limit.val ≤ blocks.length) := by omega
    have hall : 0 < limit.val → blocks.length ≤ limit.val := by omega
    simp only [pushUntil_eq, List.length_nil, Nat.zero_add, hnot', decide_false, List.nil_append,
      Nat.sub_zero, Prod.mk.injEq, true_and, ite_eq_right_iff]
    exact fun hpos => List.take_of_length_le (hall hpos)
  have hserved : ∀ fuel ≥ blocks.length + 1 + us.length,
      s.blocksFromHeightToNewest fuel height limit =
        .ok (pushUntil limit blocks speculative.reverse).2 := by
    intro fuel hfuel
    rw [blocksFromHeightToNewest, h.committedFrom_eq hlength hreads hmap (by omega), hpush]
    simp [blocksFromNewestToCommitted, hnewest, hdown fuel (by omega)]
  have hresult : (pushUntil limit blocks speculative.reverse).2 = blocks ++
      if cs.length - height.val < limit.val then
        speculative.reverse.take (limit.val - (cs.length - height.val))
      else speculative.reverse := by
    rw [pushUntil_eq, hcount]
  rw [hresult] at hserved
  refine ⟨_, fun block hblock => ?_, ?_, _, hserved⟩
  · rcases List.mem_append.mp hblock with hblock | hblock
    · exact hreads block hblock
    · refine hspeculative block (List.mem_reverse.mp ?_)
      split at hblock
      · exact List.mem_of_mem_take hblock
      · exact hblock
  · rw [List.map_append, hmap, ← hmap', ← List.map_reverse]
    split
    · rw [List.map_take]
    · rfl

/-- A pruned newest block is an error. -/
theorem not_eventually_of_missing
    (hnot : ¬(0 < limit.val ∧ height.val + limit.val ≤ cs.length))
    {newest : CryptoHash} (hnewest : s .newestBlock = some newest) (hmissing : ¬s.Stored newest)
    (blocks : List Block) :
    ¬Result.Eventually (fun fuel => s.blocksFromHeightToNewest fuel height limit) blocks := by
  rintro ⟨n, hn⟩
  obtain ⟨committed, hreads, hmap⟩ := h.exists_reads_drop height
  have hcount : committed.length = cs.length - height.val := by
    rw [← List.length_map Block.hash, hmap, List.length_drop]
  have hfull : (pushUntil limit [] committed).1 = false := by
    have hnot' : ¬(0 < limit.val ∧ limit.val ≤ committed.length) := by omega
    simpa [pushUntil_eq] using hnot'
  have hnone : s.kv.block newest = .ok none := by
    refine KVGet.block_of_no_height ?_
    rw [kv_blockHeight, Except.ok.injEq, ← Option.not_isSome_iff_eq_none, h.wf.height]
    exact hmissing
  have hserved : s.blocksFromHeightToNewest (n + committed.length + 1) height limit = .ok blocks :=
    hn _ (by omega)
  rw [blocksFromHeightToNewest, h.committedFrom_eq hlength hreads hmap (by omega),
    Result.ok_bind] at hserved
  simp [hfull, blocksFromNewestToCommitted, hnewest, blocksFromCursor, hnone] at hserved

section

variable {highest : CryptoHash} (hhighest : s .highestCommittedBlock = some highest)
  (hheight : height.val ≤ cs.length)
include hhighest hheight

theorem serves_of_above (hnot : ¬height.val + limit.val ≤ cs.length)
    (habove : s.NewestAbove) :
    ∃ blocks, Result.Eventually (fun fuel => s.blocksFromHeightToNewest fuel height limit) blocks ∧
      ProperChain height limit blocks := by
  obtain ⟨newest, highest', hnewest, hhighest', hne, hext⟩ := habove
  obtain rfl := Option.some.inj (hhighest.symm.trans hhighest')
  obtain ⟨us, hdescent⟩ := exists_descent h.wf (Stored.of_extends hext hne)
  obtain ⟨blocks, hreads, hmap, hserved⟩ :=
    h.eventually_of_descent hlength (fun hfull => hnot hfull.2) hnewest hdescent
  have hroom : cs.length - height.val < limit.val := by omega
  rw [if_pos hroom] at hmap
  obtain ⟨hchain, hfirst⟩ := h.properChain_of_above hhighest hheight hext hne hdescent
    (limit.val - (cs.length - height.val))
  refine ⟨blocks, hserved, hreads.properChain_iff.mpr ?_⟩
  rw [hmap]
  refine ⟨?_, h.wf.nodup_of_isChain hchain, hfirst, hchain⟩
  have htake := List.length_take_le (limit.val - (cs.length - height.val)) us.reverse
  rw [List.length_append, List.length_drop]
  omega

/-- A proper chain is served, of some blocks at least, where the limit is reached by committed
blocks or the newest block is above the highest committed one, and nowhere else. -/
theorem serves_iff :
    (∃ blocks, Result.Eventually (fun fuel => s.blocksFromHeightToNewest fuel height limit) blocks ∧
      ProperChain height limit blocks) ↔
    0 < limit.val ∧ (height.val + limit.val ≤ cs.length ∨ s.NewestAbove) := by
  constructor
  · rintro ⟨blocks, hserved, hproper⟩
    by_cases hfull : 0 < limit.val ∧ height.val + limit.val ≤ cs.length
    · exact ⟨hfull.1, .inl hfull.2⟩
    have hlast : cs.getLast? = some highest := h.highest.symm.trans hhighest
    have hstored : s.Stored highest := h.stored highest (List.mem_of_getLast? hlast)
    obtain ⟨newest, hnewest⟩ : ∃ newest, s .newestBlock = some newest := by
      cases hnone : s .newestBlock with
      | none => exact absurd hstored (h.newest hnone highest)
      | some newest => exact ⟨newest, rfl⟩
    have hnewestStored : s.Stored newest := by
      by_contra hmissing
      exact h.not_eventually_of_missing hlength hfull hnewest hmissing blocks hserved
    obtain ⟨us, hdescent⟩ := exists_descent h.wf hnewestStored
    obtain ⟨blocks', hreads, hmap, hserved'⟩ :=
      h.eventually_of_descent hlength hfull hnewest hdescent
    obtain rfl := hserved.unique hserved'
    obtain ⟨hcount, -, hfirst, hchain⟩ := hreads.properChain_iff.mp hproper
    rw [hmap] at hcount hfirst hchain
    have hpos : 0 < limit.val := by
      -- without a limit, all blocks from the newest one down are pushed
      by_contra hzero
      have hroom : ¬cs.length - height.val < limit.val := by omega
      obtain ⟨rest, rfl⟩ := hdescent.eq_cons
      rw [if_neg hroom, List.length_append, List.length_reverse, List.length_cons] at hcount
      omega
    refine ⟨hpos, .inr ?_⟩
    by_contra hnot
    have hroom : cs.length - height.val < limit.val := by omega
    rw [if_pos hroom] at hfirst hchain
    refine h.not_properChain_of_not_above hhighest hheight (fun habove => hnot ?_) hdescent
      (Nat.sub_pos_of_lt hroom) hfirst hchain
    exact ⟨newest, highest, hnewest, hhighest, habove⟩
  · rintro ⟨hpos, hcase⟩
    by_cases hfull : height.val + limit.val ≤ cs.length
    · exact h.serves_of_full hlength hpos hfull
    · exact h.serves_of_above hlength hhighest hheight hfull (hcase.resolve_left hfull)

end

end IndexedChain

end BlockTree
end HotStuffRs
