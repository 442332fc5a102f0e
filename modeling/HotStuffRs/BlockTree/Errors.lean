import HotStuffRs.Types.Data

namespace HotStuffRs

/-- The variable of the block tree that an error is about. -/
inductive Key
  | blockHeight (block : CryptoHash)
  | blockJustify (block : CryptoHash)
  | blockDataHash (block : CryptoHash)
  | blockDataLength (block : CryptoHash)
  | blockData (block : CryptoHash)
  | blockAtHeight (height : BlockHeight)
  | blockChildren (block : CryptoHash)
  | committedAppState (key : List Byte)
  | pendingAppStateUpdates (block : CryptoHash)
  | committedValidatorSet
  | validatorSetUpdatesStatus (block : CryptoHash)
  | lockedPC
  | highestViewEntered
  | highestPC
  | highestCommittedBlock
  | newestBlock
  | highestTC
  | previousValidatorSet
  | validatorSetUpdateHeight
  | validatorSetUpdateDecided
  | highestViewPhaseVoted
  deriving DecidableEq

inductive KVGetError
  | deserializeValueError (key : Key)
  | valueExpectedButNotFound (key : Key)
  deriving DecidableEq

inductive BlockTreeError
  | kvGetError (e : KVGetError)
  | blockExpectedButNotFound (block : CryptoHash)
  deriving DecidableEq

inductive PacemakerError
  | nonIncreasingViewError (curView nextView : ViewNumber)
  | getViewTimeoutError (view : ViewNumber)
  | triedToExtendNonEpochView (view : ViewNumber)
  deriving DecidableEq

/-- The ways a call does not return a value: an error of the source, a panic (an
arithmetic overflow, an `unwrap` or `expect` that fails), or a loop that the
model's bound on iterations cuts short. -/
inductive Failure
  | error (e : BlockTreeError)
  | pacemakerError (e : PacemakerError)
  | panic
  | outOfFuel
  deriving DecidableEq

abbrev Result := Except Failure

namespace Result

variable {α β : Type}

theorem bind_eq_ok {x : Result α} {f : α → Result β} {b : β} :
    (x >>= f) = .ok b ↔ ∃ a, x = .ok a ∧ f a = .ok b := by
  cases x <;> simp [bind, Except.bind]

@[simp] theorem ok_bind (a : α) (f : α → Result β) : (Except.ok a >>= f : Result β) = f a := rfl

@[simp] theorem error_bind (e : Failure) (f : α → Result β) :
    (Except.error e >>= f : Result β) = .error e := rfl

@[simp] theorem pure_eq (a : α) : (pure a : Result α) = .ok a := rfl

@[simp] theorem throw_eq (e : Failure) : (throw e : Result α) = .error e := rfl

/-- Wherever `x` fails, its failure is in `F`. -/
def FailsIn (F : Failure → Prop) (x : Result α) : Prop := ∀ e, x = .error e → F e

theorem failsIn_ok {F : Failure → Prop} (a : α) : FailsIn F (.ok a) := fun _ h => nomatch h

theorem failsIn_error {F : Failure → Prop} {e : Failure} (h : F e) :
    FailsIn F (.error e : Result α) := by
  intro e' heq
  cases heq
  exact h

theorem failsIn_bind {F : Failure → Prop} {x : Result α} {f : α → Result β} (hx : FailsIn F x)
    (hf : ∀ a, x = .ok a → FailsIn F (f a)) : FailsIn F (x >>= f) := by
  cases hx' : x with
  | ok a => exact hf a hx'
  | error e => exact failsIn_error (hx e hx')

theorem mapM_cons_eq_ok {f : α → Result β} {a : α} {as : List α} {bs : List β} :
    (a :: as).mapM f = .ok bs ↔ ∃ b rest, f a = .ok b ∧ as.mapM f = .ok rest ∧ bs = b :: rest := by
  rw [List.mapM_cons]
  simp only [bind_eq_ok, pure_eq, Except.ok.injEq]
  constructor
  · rintro ⟨b, hb, rest, hrest, rfl⟩
    exact ⟨b, rest, hb, hrest, rfl⟩
  · rintro ⟨b, rest, hb, hrest, rfl⟩
    exact ⟨b, hb, rest, hrest, rfl⟩

theorem mapM_append_eq_ok {f : α → Result β} {as as' : List α} {bs : List β} :
    (as ++ as').mapM f = .ok bs ↔
      ∃ l l', as.mapM f = .ok l ∧ as'.mapM f = .ok l' ∧ bs = l ++ l' := by
  rw [List.mapM_append]
  simp only [bind_eq_ok, pure_eq, Except.ok.injEq]
  constructor
  · rintro ⟨l, hl, l', hl', rfl⟩
    exact ⟨l, l', hl, hl', rfl⟩
  · rintro ⟨l, l', hl, hl', rfl⟩
    exact ⟨l, hl, l', hl', rfl⟩

theorem mem_of_mapM {f : α → Result β} {as : List α} {bs : List β} (h : as.mapM f = .ok bs)
    {b : β} : b ∈ bs ↔ ∃ a ∈ as, f a = .ok b := by
  induction as generalizing bs with
  | nil =>
    obtain rfl : [] = bs := by simpa using h
    simp
  | cons a as ih =>
    obtain ⟨b', rest, ha, hrest, rfl⟩ := mapM_cons_eq_ok.mp h
    simp [ih hrest, ha, eq_comm]

theorem exists_of_mapM {f : α → Result β} {as : List α} {bs : List β} (h : as.mapM f = .ok bs)
    {a : α} (ha : a ∈ as) : ∃ b ∈ bs, f a = .ok b := by
  induction as generalizing bs with
  | nil => cases ha
  | cons a' as ih =>
    obtain ⟨b, rest, hb, hrest, rfl⟩ := mapM_cons_eq_ok.mp h
    rcases List.mem_cons.mp ha with rfl | ha
    · exact ⟨b, List.mem_cons_self, hb⟩
    · obtain ⟨b', hb', hf⟩ := ih hrest ha
      exact ⟨b', List.mem_cons_of_mem _ hb', hf⟩

theorem error_of_mapM {f : α → Result β} {as : List α} {e : Failure}
    (h : as.mapM f = .error e) : ∃ a ∈ as, f a = .error e := by
  induction as with
  | nil => cases h
  | cons a as ih =>
    rw [List.mapM_cons] at h
    cases ha : f a with
    | error e' =>
      rw [ha] at h
      cases h
      exact ⟨a, List.mem_cons_self, ha⟩
    | ok b =>
      rw [ha, ok_bind] at h
      cases hrest : as.mapM f with
      | error e' =>
        rw [hrest] at h
        cases h
        obtain ⟨a', ha', he⟩ := ih hrest
        exact ⟨a', List.mem_cons_of_mem _ ha', he⟩
      | ok bs =>
        rw [hrest] at h
        cases h

/-- A list with an element that fails, where all that fail do so in the same way. -/
theorem mapM_eq_error {f : α → Result β} {as : List α} {a : α} {e : Failure} (ha : a ∈ as)
    (hfail : f a = .error e) (hsame : ∀ a' ∈ as, ∀ e', f a' = .error e' → e' = e) :
    as.mapM f = .error e := by
  cases h : as.mapM f with
  | ok bs =>
    obtain ⟨b, -, hb⟩ := exists_of_mapM h ha
    rw [hfail] at hb
    cases hb
  | error e' =>
    obtain ⟨a', ha', hf⟩ := error_of_mapM h
    rw [hsame a' ha' e' hf]

theorem mapM_eq_map {f : α → Result β} {g : α → β} {as : List α}
    (h : ∀ a ∈ as, f a = .ok (g a)) : as.mapM f = .ok (as.map g) := by
  induction as with
  | nil => rfl
  | cons a as ih =>
    exact mapM_cons_eq_ok.mpr ⟨g a, as.map g, h a List.mem_cons_self,
      ih fun a' ha' => h a' (List.mem_cons_of_mem _ ha'), rfl⟩

theorem mapM_mono {f g : α → Result β} {as : List α} {bs : List β}
    (hfg : ∀ a ∈ as, ∀ b, f a = .ok b → g a = .ok b) (h : as.mapM f = .ok bs) :
    as.mapM g = .ok bs := by
  induction as generalizing bs with
  | nil => exact h
  | cons a as ih =>
    obtain ⟨b, rest, hb, hrest, rfl⟩ := mapM_cons_eq_ok.mp h
    exact mapM_cons_eq_ok.mpr ⟨b, rest, hfg a List.mem_cons_self b hb,
      ih (fun a' ha' => hfg a' (List.mem_cons_of_mem _ ha')) hrest, rfl⟩

/-- With enough fuel `f` gives `a`. -/
def Eventually (f : Nat → Result α) (a : α) : Prop := ∃ n, ∀ fuel ≥ n, f fuel = .ok a

namespace Eventually

theorem const {x : Result α} {a : α} (h : x = .ok a) : Eventually (fun _ => x) a :=
  ⟨0, fun _ _ => h⟩

theorem of_mono {f : Nat → Result α} {a : α} {n : Nat} (h : f n = .ok a)
    (hmono : ∀ m ≥ n, f n = .ok a → f m = .ok a) : Eventually f a :=
  ⟨n, fun m hm => hmono m hm h⟩

theorem unique {f : Nat → Result α} {a b : α} (ha : Eventually f a) (hb : Eventually f b) : a = b := by
  obtain ⟨n, hn⟩ := ha
  obtain ⟨m, hm⟩ := hb
  have h := hn (max n m) (le_max_left n m)
  rw [hm (max n m) (le_max_right n m)] at h
  exact (Except.ok.inj h).symm

theorem bind {f : Nat → Result α} {g : Nat → α → Result β} {a : α} {b : β}
    (hf : Eventually f a) (hg : Eventually (fun fuel => g fuel a) b) :
    Eventually (fun fuel => f fuel >>= g fuel) b := by
  obtain ⟨n, hn⟩ := hf
  obtain ⟨m, hm⟩ := hg
  refine ⟨max n m, fun fuel hfuel => bind_eq_ok.mpr ⟨a, hn fuel ?_, hm fuel ?_⟩⟩
  · exact le_trans (le_max_left n m) hfuel
  · exact le_trans (le_max_right n m) hfuel

theorem map {f : Nat → Result α} {a : α} (g : α → β) (hf : Eventually f a) :
    Eventually (fun fuel => f fuel >>= fun a => pure (g a)) (g a) :=
  hf.bind (const rfl)

theorem mapM {f : Nat → α → Result β} {as : List α}
    (h : ∀ a ∈ as, ∃ b, Eventually (fun fuel => f fuel a) b) :
    ∃ bs, Eventually (fun fuel => as.mapM (f fuel)) bs := by
  induction as with
  | nil => exact ⟨[], const rfl⟩
  | cons a as ih =>
    obtain ⟨b, hb⟩ := h a List.mem_cons_self
    obtain ⟨rest, hrest⟩ := ih fun a' ha' => h a' (List.mem_cons_of_mem _ ha')
    refine ⟨b :: rest, ?_⟩
    simp only [List.mapM_cons]
    exact hb.bind (hrest.map (b :: ·))

end Eventually

/-- `Result::ok`. -/
def ok? : Result α → Option α
  | .ok a => some a
  | .error _ => none

@[simp] theorem ok?_ok (a : α) : ok? (.ok a) = some a := rfl

@[simp] theorem ok?_error (e : Failure) : ok? (.error e : Result α) = none := rfl

theorem ok?_eq_some {x : Result α} {a : α} : ok? x = some a ↔ x = .ok a := by
  cases x <;> simp

/-- `unwrap` on an `Option`. -/
def unwrap : Option α → Result α
  | some a => .ok a
  | none => .error .panic

@[simp] theorem unwrap_some (a : α) : unwrap (some a) = .ok a := rfl

@[simp] theorem unwrap_none : unwrap (none : Option α) = .error .panic := rfl

theorem unwrap_eq_ok {o : Option α} {a : α} : unwrap o = .ok a ↔ o = some a := by
  cases o <;> simp

end Result

namespace U64

/-- Addition on `u64`, which panics on overflow: arithmetic here follows the profile with overflow
checks. -/
def add (a b : U64) : Result U64 :=
  if h : a.val + b.val < 2 ^ 64 then .ok ⟨a.val + b.val, h⟩ else .error .panic

/-- Subtraction on `u64`, which panics on underflow in that profile. -/
def sub (a b : U64) : Result U64 :=
  if h : b.val ≤ a.val then .ok ⟨a.val - b.val, by omega⟩ else .error .panic

theorem add_eq_ok {a b c : U64} : add a b = .ok c ↔ a.val + b.val = c.val := by
  unfold add
  split
  · simp [Fin.ext_iff]
  · simp only [reduceCtorEq, false_iff]
    omega

end U64

end HotStuffRs
