import HotStuffRs.BlockTree.Bytes
import HotStuffRs.Replica.Emits

/-
Replicas over stores of bytes.

A replica keeps its block tree as bytes under keys, in a store that the user provides.  The
other modules take each variable as a value of its own.  Here both are run side by side.
-/

namespace HotStuffRs

open Kv Kv.Process Codec

variable {cr : Crypto} {config : Configuration} {apps : App → Prop}

namespace KVStore

variable {st st' : KVStore}

/-- The values that the bytes of a store stand for. -/
def tree (st : KVStore) : BlockTree := fun v => (st v.key).bind v.decode

/-- The bytes kept for variables are encodings of values. -/
def Readable (st : KVStore) : Prop := ∀ v : Var, ∀ bs, st v.key = some bs → (v.decode bs).isSome

theorem get_eq_ok_iff {v : Var} {x : Option v.Val} :
    (kv st).get v = .ok x ↔ st.tree v = x ∧ ∀ bs, st v.key = some bs → (v.decode bs).isSome := by
  unfold kv tree
  dsimp only
  cases st v.key with
  | none => simp
  | some bs => cases hdecode : v.decode bs <;> simp [hdecode]

theorem get_of_readable (h : st.Readable) (v : Var) : (kv st).get v = .ok (st.tree v) :=
  get_eq_ok_iff.mpr ⟨rfl, h v⟩

/-- The getters over readable bytes are those over the values they stand for. -/
theorem kv_of_readable (h : st.Readable) : kv st = Store.kv st.tree :=
  congrArg KVGet.mk (funext (get_of_readable h))

theorem get_write_of_readable (h : st.Readable) {wb : WriteBatch}
    {bytes : Batch fun _ : List Byte => List Byte} (hbytes : encodeBatch wb = some bytes) (v : Var) :
    (kv (st.write bytes)).get v = .ok (st.tree.write wb v) := by
  rw [get_write hbytes, get_of_readable h, Store.write_eq]
  cases Batch.result? v wb <;> rfl

theorem tree_write (h : st.Readable) {wb : WriteBatch}
    {bytes : Batch fun _ : List Byte => List Byte} (hbytes : encodeBatch wb = some bytes) :
    tree (st.write bytes) = st.tree.write wb :=
  funext fun v => (get_eq_ok_iff.mp (get_write_of_readable h hbytes v)).1

theorem readable_write (h : st.Readable) {wb : WriteBatch}
    {bytes : Batch fun _ : List Byte => List Byte} (hbytes : encodeBatch wb = some bytes) :
    Readable (st.write bytes) :=
  fun v => (get_eq_ok_iff.mp (get_write_of_readable h hbytes v)).2

theorem readable_empty : Readable Store.empty := by
  intro v bs h
  cases h

theorem key_of_encodeOp {o : Op Var.Val} {o' : Op fun _ : List Byte => List Byte}
    (h : encodeOp o = some o') : o'.key = o.key.key := by
  cases o with
  | set v x =>
    obtain ⟨bs, -, rfl⟩ := Option.map_eq_some_iff.mp h
    rfl
  | delete v =>
    obtain rfl := Option.some.inj h
    rfl

/-- No batch touches a key that is not of a variable. -/
theorem write_of_ne_key {wb : WriteBatch} {bytes : Batch fun _ : List Byte => List Byte}
    (hbytes : encodeBatch wb = some bytes) {k : List Byte} (hk : ∀ v : Var, v.key ≠ k) :
    st.write bytes k = st k := by
  induction wb generalizing st bytes with
  | nil =>
    obtain rfl := Option.some.inj hbytes
    rfl
  | cons o wb ih =>
    simp only [encodeBatch, List.mapM_cons, Option.pure_def, Option.bind_eq_bind,
      Option.bind_eq_some_iff, Option.some.injEq] at hbytes
    obtain ⟨o', ho, rest, hrest, rfl⟩ := hbytes
    have hne : k ≠ o'.key := by
      rw [key_of_encodeOp ho]
      exact (hk o.key).symm
    rw [Store.write_cons, ih hrest, Store.apply_of_ne st hne]

/-! ## Effects on bytes -/

/-- The bytes after an event, unless a value that it sets does not serialize. -/
def perform? (st : KVStore) : Event → Option KVStore
  | .effect (.write wb) => (encodeBatch wb).map st.write
  | .effect (.act _) | .crash => some st

/-- The bytes after the events of `log`. -/
def replay? (st : KVStore) (log : List Event) : Option KVStore := log.foldlM perform? st

theorem replay?_append {log log' : List Event} :
    st.replay? (log ++ log') = (st.replay? log).bind fun st' => st'.replay? log' :=
  List.foldlM_append

theorem perform?_spec (h : st.Readable) {e : Event} (he : st.perform? e = some st') :
    st'.Readable ∧ st'.tree = st.tree.perform e ∧
      ∀ k, (∀ v : Var, v.key ≠ k) → st' k = st k := by
  cases e with
  | crash =>
    obtain rfl := Option.some.inj he
    exact ⟨h, rfl, fun _ _ => rfl⟩
  | effect e =>
    cases e with
    | act a =>
      obtain rfl := Option.some.inj he
      exact ⟨h, rfl, fun _ _ => rfl⟩
    | write wb =>
      obtain ⟨bytes, hbytes, rfl⟩ := Option.map_eq_some_iff.mp he
      exact ⟨readable_write h hbytes, tree_write h hbytes, fun _ => write_of_ne_key hbytes⟩

theorem replay?_spec (h : st.Readable) {log : List Event} (hlog : st.replay? log = some st') :
    st'.Readable ∧ st'.tree = st.tree.replay log ∧
      ∀ k, (∀ v : Var, v.key ≠ k) → st' k = st k := by
  induction log generalizing st with
  | nil =>
    obtain rfl := Option.some.inj hlog
    exact ⟨h, rfl, fun _ _ => rfl⟩
  | cons e log ih =>
    obtain ⟨mid, he, hrest⟩ := Option.bind_eq_some_iff.mp hlog
    obtain ⟨hmid, htree, hkeys⟩ := perform?_spec h he
    obtain ⟨hst', htree', hkeys'⟩ := ih hmid hrest
    refine ⟨hst', ?_, fun k hk => (hkeys' k hk).trans (hkeys k hk)⟩
    rw [htree', htree]
    rfl

end KVStore

/-! ## Runs over bytes -/

/-- The runs of a replica that reads and writes bytes: as `Run`, but each iteration and each
restart finds what the bytes stand for, and what it writes is written as bytes. -/
inductive ByteRun (cr : Crypto) (config : Configuration) (apps : App → Prop) (st₀ : KVStore) :
    List Event → Algorithm → KVStore → Prop
  | start {alg now} (hstart : Algorithm.new config st₀.tree now = .ok alg) :
    ByteRun cr config apps st₀ [] alg st₀
  | iterate {log alg st fuel input w st'} (run : ByteRun cr config apps st₀ log alg st)
      (happ : apps input.app)
      (hok : Algorithm.iterate cr fuel input { mem := alg, base := st.tree, effects := [] } =
        .ok () w)
      (hwrites : st.replay? (w.effects.map .effect) = some st') :
    ByteRun cr config apps st₀ (log ++ w.effects.map .effect) w.mem st'
  | restart {log alg st fuel input effects st' alg' now}
      (run : ByteRun cr config apps st₀ log alg st) (happ : apps input.app)
      (hcrash : effects <+: (Replica.iterated cr fuel ⟨alg, st.tree⟩ input).effects)
      (hwrites : st.replay? (effects.map .effect) = some st')
      (hstart : Algorithm.new config st'.tree now = .ok alg') :
    ByteRun cr config apps st₀ (log ++ effects.map .effect ++ [.crash]) alg' st'

variable {st₀ st : KVStore} {log : List Event} {alg : Algorithm}

theorem start_of_new {s : BlockTree} {now : Instant} (h : Algorithm.new config s now = .ok alg) :
    Replica.start config s now = .ok ⟨alg, s⟩ := by
  rw [Replica.start, h]
  rfl

theorem new_of_start {s : BlockTree} {now : Instant} {r : Replica}
    (h : Replica.start config s now = .ok r) : Algorithm.new config s now = .ok r.alg ∧ r.tree = s := by
  obtain ⟨alg, halg, h⟩ := Result.bind_eq_ok.mp h
  obtain rfl := Except.ok.inj h
  exact ⟨halg, rfl⟩

theorem ByteRun.replay? (run : ByteRun cr config apps st₀ log alg st) :
    st₀.replay? log = some st := by
  induction run with
  | start => rfl
  | iterate run happ hok hwrites ih => rw [KVStore.replay?_append, ih, Option.bind_some, hwrites]
  | restart run happ hcrash hwrites hstart ih =>
    rw [KVStore.replay?_append, KVStore.replay?_append, ih, Option.bind_some, hwrites]
    rfl

theorem Run.base_eq {s₀ : BlockTree} {r : Replica} {fuel : Nat} {input : Input}
    {w : World Algorithm Action Var.Val} (run : Run cr config apps s₀ log r)
    (happ : apps input.app) (hok : r.run cr fuel input = .ok () w) : w.base = r.tree := by
  have hbase := (Protocol.emitted_iterated fuel run happ).1
  rwa [Replica.iterated, hok] at hbase

/-- What a replica over bytes does, a replica over the values does. -/
theorem ByteRun.run (h : st₀.Readable) (run : ByteRun cr config apps st₀ log alg st) :
    Run cr config apps st₀.tree log ⟨alg, st.tree⟩ := by
  induction run with
  | start hstart => exact .start (start_of_new hstart)
  | @iterate log alg st fuel input w st' run happ hok hwrites ih =>
    obtain ⟨hreadable, -, -⟩ := KVStore.replay?_spec h run.replay?
    obtain ⟨-, htree, -⟩ := KVStore.replay?_spec hreadable hwrites
    have hnext := ih.iterate happ hok
    rwa [World.tree, ih.base_eq happ hok, ← BlockTree.replay_effects, ← htree] at hnext
  | @restart log alg st fuel input effects st' alg' now run happ hcrash hwrites hstart ih =>
    obtain ⟨hreadable, -, -⟩ := KVStore.replay?_spec h run.replay?
    obtain ⟨-, htree, -⟩ := KVStore.replay?_spec hreadable hwrites
    have hrestart : Replica.start config (Store.replay st.tree effects) now = .ok ⟨alg', st'.tree⟩ := by
      rw [← BlockTree.replay_effects, ← htree]
      exact start_of_new hstart
    exact ih.restart happ hcrash hrestart

/-- What a replica over the values does, a replica over bytes does, too, as long as all that
it writes serializes. -/
theorem Run.byteRun {r : Replica} (h : st₀.Readable) (run : Run cr config apps st₀.tree log r)
    (hlog : st₀.replay? log = some st) : ByteRun cr config apps st₀ log r.alg st ∧ r.tree = st.tree := by
  have htree : r.tree = st.tree := run.tree_eq.trans (KVStore.replay?_spec h hlog).2.1.symm
  refine ⟨?_, htree⟩
  clear htree
  induction run generalizing st with
  | start hstart =>
    obtain rfl := Option.some.inj hlog
    exact .start (new_of_start hstart).1
  | @iterate log r fuel input w run happ hok ih =>
    rw [KVStore.replay?_append] at hlog
    obtain ⟨mid, hmid, hwrites⟩ := Option.bind_eq_some_iff.mp hlog
    have htree : r.tree = mid.tree := run.tree_eq.trans (KVStore.replay?_spec h hmid).2.1.symm
    rw [Replica.run, htree] at hok
    exact (ih hmid).iterate happ hok hwrites
  | @restart log r fuel input effects r' now run happ hcrash hstart ih =>
    rw [KVStore.replay?_append, KVStore.replay?_append] at hlog
    obtain ⟨last, hbefore, hlast⟩ := Option.bind_eq_some_iff.mp hlog
    obtain rfl := Option.some.inj hlast
    obtain ⟨mid, hmid, hwrites⟩ := Option.bind_eq_some_iff.mp hbefore
    obtain ⟨hreadable, hreplay, -⟩ := KVStore.replay?_spec h hmid
    have htree : r.tree = mid.tree := run.tree_eq.trans hreplay.symm
    have hnew := (new_of_start hstart).1
    rw [htree, ← BlockTree.replay_effects,
      ← (KVStore.replay?_spec hreadable hwrites).2.1] at hnew
    rw [show r = ⟨r.alg, mid.tree⟩ from congrArg (Replica.mk r.alg) htree] at hcrash
    exact (ih hmid).restart happ hcrash hwrites hnew

/-- A replica over bytes does the same as one over the values that the bytes stand for: the
runs are the same as long as the values serialize, the getters find at every point, also
within an iteration, what they find in the values, and no key is touched that is not of a
variable. -/
theorem bytes_refine_tree (h : st₀.Readable) :
    (∀ r : Replica, ∀ st, st₀.replay? log = some st →
      (Run cr config apps st₀.tree log r ↔
        ByteRun cr config apps st₀ log r.alg st ∧ r.tree = st.tree)) ∧
    ∀ alg st, ByteRun cr config apps st₀ log alg st →
      st₀.replay? log = some st ∧
      (∀ fuel input effects st', apps input.app →
        effects <+: (Replica.iterated cr fuel ⟨alg, st.tree⟩ input).effects →
        st.replay? (effects.map .effect) = some st' →
          KVStore.kv st' = Store.kv (Store.replay st.tree effects)) ∧
      ∀ k, (∀ v : Var, v.key ≠ k) → st k = st₀ k := by
  refine ⟨fun r st hlog => ⟨fun run => run.byteRun h hlog, ?_⟩, fun alg st run => ?_⟩
  · rintro ⟨run, htree⟩
    have hrun := run.run h
    rwa [← htree] at hrun
  · obtain ⟨hreadable, -, hkeys⟩ := KVStore.replay?_spec h run.replay?
    refine ⟨run.replay?, fun fuel input effects st' _ _ hwrites => ?_, hkeys⟩
    obtain ⟨hreadable', htree, -⟩ := KVStore.replay?_spec hreadable hwrites
    rw [KVStore.kv_of_readable hreadable', htree, BlockTree.replay_effects]

/-! ## Three views over bytes -/

namespace Sample

def initialBatch : WriteBatch :=
  BlockTree.initialBatch UpdateSet.new ⟨validators, validators, none, true⟩

def initialBytes : KVStore := Store.empty.write ((KVStore.encodeBatch initialBatch).getD [])

theorem encodes_initialBatch :
    KVStore.encodeBatch initialBatch = some ((KVStore.encodeBatch initialBatch).getD []) := by
  have hsome : (KVStore.encodeBatch initialBatch).isSome = true := by decide +kernel
  obtain ⟨bytes, hbytes⟩ := Option.isSome_iff_exists.mp hsome
  rw [hbytes]
  rfl

theorem readable_initialBytes : initialBytes.Readable :=
  KVStore.readable_write KVStore.readable_empty encodes_initialBatch

theorem tree_initialBytes : initialBytes.tree = tree :=
  KVStore.tree_write KVStore.readable_empty encodes_initialBatch

end Sample

set_option maxRecDepth 100000 in
theorem checks_firstThreeViews_serialize : Replica.checks Sample.crypto (Sample.configuration 3)
    Sample.tree 20 (fun _ _ => true) Sample.firstThreeViews (fun log r =>
      (Sample.initialBytes.replay? log).any (fun st => (st [9]).isSome) &&
        r.tree .highestViewEntered == some 3) = true := by
  decide +kernel

/-- A replica over bytes gets through three views. -/
theorem bytes_refine_tree_three_views : ∃ log alg st,
    ByteRun Sample.crypto (Sample.configuration 3) (· = Sample.app) Sample.initialBytes log alg st ∧
    st.tree .highestViewEntered = some 3 ∧ KVStore.kv st = Store.kv st.tree := by
  obtain ⟨log, r, run, hlog⟩ := exists_run_of_checks Sample.app_firstThreeViews
    checks_firstThreeViews_serialize
  simp only [Bool.and_eq_true, beq_iff_eq] at hlog
  obtain ⟨hserialize, hview⟩ := hlog
  obtain ⟨st, hst, -⟩ := (Option.any_eq_true _ _).mp hserialize
  have hrefine := @bytes_refine_tree Sample.crypto (Sample.configuration 3) (· = Sample.app)
    Sample.initialBytes log Sample.readable_initialBytes
  rw [← Sample.tree_initialBytes] at run
  obtain ⟨hbytes, htree⟩ := (hrefine.1 r st hst).mp run
  refine ⟨log, r.alg, st, hbytes, by rw [← htree, hview], ?_⟩
  exact (hrefine.2 r.alg st hbytes).2.1 0 (Sample.propose 1 Sample.block₀) [] st rfl
    List.nil_prefix rfl

end HotStuffRs
