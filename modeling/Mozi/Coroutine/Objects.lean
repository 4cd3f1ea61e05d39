import Mathlib.Data.List.Induction
import Mozi.Coroutine.Isolation
import Mozi.Coroutine.MzCoroutine

/-!
# Objects — the `MzCoroutine` objects of one thread

`core/coroutine/mz_coroutine.h` and `mz_coroutine.cc` over `mzco.cc`.  Every constructor makes a
share stack of its own.  So the library never finds a foreign owner on a stack, nothing is ever
copied, none of its assertions can fail, and each object goes through a run of
`MzCoroutine.coroutine` of its own, whatever the others do (`objects_independent`).

Objects are constructed and resumed from the main coroutine; the destructor, `Wake`,
`SetUpdateFlag`, `Stop` and `UpdateState` may come from anywhere.  A pointer to an object is the
number of its coroutine.
-/

namespace Mozi
namespace Coroutine

open Foundation

structure Objects (Stk : Type) where
  /-- the state of the library -/
  mz : State Stk
  obj : CoId → Option MzCoroutine.State
  /-- the object whose `Resume` has not returned -/
  inside : Option CoId
  /-- a body has returned -/
  aborted : Bool

namespace Objects

inductive Action (Stk : Type)
  /-- the stack comes with the address of `mz_funcp_protector_asm`, the allocator answers with a
  save buffer at `ptr` -/
  | construct (c : CoId) (share_stack : Stk) (protector : List UInt8) (now : MzCoroutine.Time)
      (ptr : Nat)
  | destroy (c : CoId)
  | Resume (c : CoId) (ptr : Nat)
  | suspend (c : CoId) (how : MzCoroutine.Suspension) (sp : Nat)
  | resumeReturn (c : CoId)
  | bodyReturn (c : CoId)
  | Wake (c : CoId)
  | SetUpdateFlag (c : CoId)
  | Stop (c : CoId)
  | UpdateState (c : CoId) (now : MzCoroutine.Time)
  /-- a byte written by anybody but the library -/
  | write (addr : Nat) (byte : UInt8)

variable {Stk : Type} [DecidableEq Stk] (L : Layout Stk)

def init : Objects Stk :=
  { mz := State.init
    obj := fun _ => none
    inside := none
    aborted := false }

/-! ## The calls -/

/-- The call on the object alone. -/
def call (s : Objects Stk) (c : CoId) (a : MzCoroutine.Action) : Option (Objects Stk) :=
  (s.obj c).bind fun o => (o.step a).map fun o => { s with obj := Function.update s.obj c (some o) }

/-- `MzCoroutine::MzCoroutine` with the stack that `mz_share_stack_new` returns. -/
def construct (s : Objects Stk) (c : CoId) (share_stack : Stk) (protector : List UInt8)
    (now : MzCoroutine.Time) (ptr : Nat) : Objects Stk :=
  let mz := { s.mz with
    mem := s.mz.mem.store (L.stack share_stack).align_retptr protector
    owner := Function.update s.mz.owner share_stack none
    align_validsz := Function.update s.mz.align_validsz share_stack 0 }
  { s with
    mz := mz.mz_create L c share_stack 0 ptr
    obj := Function.update s.obj c (some (.new now)) }

/-- `MzCoroutine::~MzCoroutine`. -/
def destroy (s : Objects Stk) (c : CoId) : Option (Objects Stk) :=
  (s.mz.mz_destory c).map fun mz =>
    { s with
      mz := mz
      obj := Function.update s.obj c none }

/-- `MzCoroutine::Resume` up to its return or its switch into the body. -/
def Resume (s : Objects Stk) (c : CoId) (ptr : Nat) : Option (Objects Stk) :=
  (s.obj c).bind fun o =>
    (o.step .Resume).bind fun o =>
      let s := { s with obj := Function.update s.obj c (some o) }
      if o.control = .body then
        (s.mz.mz_resume L c ptr).map fun mz => { s with mz := mz, inside := some c }
      else
        some s

/-- The body of `c` calls `mz_yield`. -/
def suspend (s : Objects Stk) (c : CoId) (how : MzCoroutine.Suspension) (sp : Nat) :
    Option (Objects Stk) :=
  (s.call c (.suspend how)).bind fun s =>
    (s.mz.mz_yield sp).map fun mz => { s with mz := mz }

def resumeReturn (s : Objects Stk) (c : CoId) : Option (Objects Stk) :=
  (s.call c .resumeReturn).map fun s => { s with inside := none }

def bodyReturn (s : Objects Stk) (c : CoId) : Option (Objects Stk) :=
  (s.call c .bodyReturn).map fun s => { s with aborted := true }

def step (s : Objects Stk) (a : Action Stk) : Option (Objects Stk) :=
  if s.aborted then
    none
  else
    match a with
    | .construct c share_stack protector now ptr =>
        some (s.construct L c share_stack protector now ptr)
    | .destroy c => s.destroy c
    | .Resume c ptr => s.Resume L c ptr
    | .suspend c how sp => s.suspend c how sp
    | .resumeReturn c => s.resumeReturn c
    | .bodyReturn c => s.bodyReturn c
    | .Wake c => s.call c .Wake
    | .SetUpdateFlag c => s.call c .SetUpdateFlag
    | .Stop c => s.call c .Stop
    | .UpdateState c now => s.call c (.UpdateState now)
    | .write addr byte => some { s with mz := { s.mz with mem := s.mz.mem.store addr [byte] } }

/-- The objects of a thread as a machine over the calls that reach them. -/
def objects : Machine (Objects Stk) (Action Stk) :=
  { step := step L }

@[simp] theorem objects_step (s : Objects Stk) (a : Action Stk) :
    (objects L).step s a = s.step L a := rfl

/-- What the callers promise.  An object is constructed on a stack of its own; it is resumed while
the main coroutine runs and not destroyed before that `Resume` has returned; only the running body
suspends or returns. -/
def Permitted (s : Objects Stk) (a : Action Stk) : Prop :=
  s.aborted = false ∧
    match a with
    | .construct c share_stack _ _ _ =>
        s.inside = none ∧ s.obj c = none ∧
          ∀ d co, s.mz.cos d = some co → co.share_stack ≠ share_stack
    | .destroy c => (s.obj c).isSome ∧ s.inside ≠ some c
    | .Resume c _ => (s.obj c).isSome ∧ s.inside = none
    | .suspend c _ _ => s.mz.gtls_co = some c
    | .resumeReturn c => s.inside = some c ∧ s.mz.gtls_co = none
    | .bodyReturn c => s.mz.gtls_co = some c
    | .Wake c => (s.obj c).isSome
    | .SetUpdateFlag c => (s.obj c).isSome
    | .Stop c => (s.obj c).isSome
    | .UpdateState c _ => (s.obj c).isSome
    | .write _ _ => True

/-! ## The invariant -/

/-- Nothing has been saved or restored. -/
def Unused (save : SaveStack) : Prop :=
  save.sz = 64 ∧ save.valid_sz = 0 ∧ save.max_cpsz = 0 ∧ save.ct_save = 0 ∧ save.ct_restore = 0

/-- Where `c` has to be. -/
def controlOf (s : Objects Stk) (c : CoId) : MzCoroutine.Control :=
  if s.inside = some c then
    if s.mz.gtls_co = some c then .body else .switched
  else
    .caller

/-- Objects and coroutines go together, no stack has two coroutines, and none was ever saved. -/
structure Alone (s : Objects Stk) : Prop where
  object_iff : ∀ c, (s.obj c).isSome ↔ (s.mz.cos c).isSome
  unused : ∀ c co, s.mz.cos c = some co → co.is_end = false ∧ Unused co.save_stack
  stack : ∀ c d co dco, s.mz.cos c = some co → s.mz.cos d = some dco →
    co.share_stack = dco.share_stack → c = d
  owned : ∀ k c, s.mz.owner k = some c → ∃ co, s.mz.cos c = some co ∧ co.share_stack = k
  running : ∀ c, s.mz.gtls_co = some c → s.inside = some c
  entered : ∀ c, s.inside = some c → (s.obj c).isSome
  control : s.aborted = false → ∀ c o, s.obj c = some o → o.control = s.controlOf c

variable {L} {s t : Objects Stk} {a : Action Stk} {c d : CoId} {k : Stk}

omit [DecidableEq Stk] in
theorem alone_init : Alone (init : Objects Stk) where
  object_iff := by simp [init, State.init]
  unused := by simp [init, State.init]
  stack := by simp [init, State.init]
  owned := by simp [init, State.init]
  running := by simp [init, State.init]
  entered := by simp [init]
  control := by simp [init]

/-- The library resumes a coroutine that is alone on its stack, and copies nothing. -/
theorem resume_alone {mz : State Stk} {co : Co Stk} {ptr : Nat} (hc : mz.cos c = some co)
    (hlive : co.is_end = false) (hunused : Unused co.save_stack)
    (howner : mz.owner co.share_stack = none ∨ mz.owner co.share_stack = some c) :
    ∃ t, mz.mz_resume L c ptr = some t ∧ t.mem = mz.mem ∧ t.cos = mz.cos ∧
      t.owner = Function.update mz.owner co.share_stack (some c) ∧ t.gtls_co = some c := by
  have hsame : Function.update mz.cos c (some co) = mz.cos := by
    rw [← hc, Function.update_eq_self]
  obtain ⟨reg_sp, is_end, save, share_stack⟩ := co
  obtain rfl : is_end = false := hlive
  have hvalid : save.valid_sz = 0 := hunused.2.1
  rcases howner with hfree | hown
  · have hsave : mz.saveOwner L share_stack ptr = some mz := by simp [State.saveOwner, hfree]
    have hrestored : save.noteRestore = save := by
      obtain ⟨p, sz, valid_sz, max_cpsz, ct_save, ct_restore⟩ := save
      simp_all [SaveStack.noteRestore]
    simp [State.mz_resume, State.restore, hc, hfree, hsave, hvalid, hrestored, hsame]
  · have hkept : Function.update mz.owner share_stack (some c) = mz.owner := by
      rw [← hown, Function.update_eq_self]
    simp [State.mz_resume, hc, hown, hkept]

omit [DecidableEq Stk] in
/-- What a call on one object makes of the objects. -/
theorem call_spec {b : MzCoroutine.Action} (h : s.call c b = some t) :
    ∃ o o', s.obj c = some o ∧ o.step b = some o' ∧
      t = { s with obj := Function.update s.obj c (some o') } := by
  obtain ⟨o, ho, hrest⟩ := Option.bind_eq_some_iff.1 h
  obtain ⟨o', ho', rfl⟩ := Option.map_eq_some_iff.1 hrest
  exact ⟨o, o', ho, ho', rfl⟩

omit [DecidableEq Stk] in
/-- A call that leaves the control where it is. -/
theorem Alone.call (hs : Alone s) {b : MzCoroutine.Action} {o o' : MzCoroutine.State}
    (ho : s.obj c = some o) (hstep : o.step b = some o') (hcontrol : o'.control = o.control) :
    ∃ t, s.call c b = some t ∧ Alone t ∧ t.mz = s.mz := by
  refine ⟨{ s with obj := Function.update s.obj c (some o') }, ?_, ?_, rfl⟩
  · simp [Objects.call, ho, hstep]
  have hsome : ∀ d, (Function.update s.obj c (some o') d).isSome = (s.obj d).isSome := by
    intro d
    by_cases hd : d = c
    · subst hd
      simp [ho]
    · simp [hd]
  refine
    { object_iff := ?_
      unused := hs.unused
      stack := hs.stack
      owned := hs.owned
      running := hs.running
      entered := ?_
      control := ?_ }
  · intro d
    rw [hsome]
    exact hs.object_iff d
  · intro d hd
    rw [hsome]
    exact hs.entered d hd
  · intro hrun d p hp
    by_cases hd : d = c
    · subst hd
      obtain rfl : o' = p := by simpa using hp
      rw [hcontrol]
      exact hs.control hrun d o ho
    · exact hs.control hrun d p (by simpa [hd] using hp)

/-! ## One step -/

omit [DecidableEq Stk] in
theorem Alone.obj_of_co (hs : Alone s) {co : Co Stk} (hc : s.mz.cos c = some co) :
    (s.obj c).isSome := by
  rw [hs.object_iff, hc]
  rfl

omit [DecidableEq Stk] in
/-- Not inside a `Resume` means that the main coroutine runs. -/
theorem Alone.gtls_none (hs : Alone s) (hinside : s.inside = none) : s.mz.gtls_co = none := by
  cases hrun : s.mz.gtls_co with
  | none =>
      rfl
  | some d =>
      have hin := hs.running d hrun
      rw [hinside] at hin
      cases hin

theorem construct_alone (hs : Alone s) (hinside : s.inside = none) (hnew : s.obj c = none)
    (hstack : ∀ d co, s.mz.cos d = some co → co.share_stack ≠ k) (protector : List UInt8)
    (now : MzCoroutine.Time) (ptr : Nat) : Alone (s.construct L c k protector now ptr) := by
  have hold : ∀ d co, d ≠ c → (s.construct L c k protector now ptr).mz.cos d = some co →
      s.mz.cos d = some co := by
    intro d co hd hco
    simpa [construct, State.mz_create, hd] using hco
  have hgtls : s.mz.gtls_co = none := hs.gtls_none hinside
  refine
    { object_iff := ?_
      unused := ?_
      stack := ?_
      owned := ?_
      running := by simp [construct, State.mz_create, hgtls]
      entered := by simp [construct, hinside]
      control := ?_ }
  · intro d
    by_cases hd : d = c
    · subst hd
      simp [construct, State.mz_create]
    · simpa [construct, State.mz_create, hd] using hs.object_iff d
  · intro d co hco
    by_cases hd : d = c
    · subst hd
      obtain rfl := by simpa [construct, State.mz_create] using hco
      exact ⟨rfl, rfl, rfl, rfl, rfl, rfl⟩
    · exact hs.unused d co (hold d co hd hco)
  · intro d e co eco hco heco hsame
    by_cases hd : d = c <;> by_cases he : e = c
    · rw [hd, he]
    · subst hd
      obtain rfl := by simpa [construct, State.mz_create] using hco
      exact absurd hsame.symm (hstack e eco (hold e eco he heco))
    · subst he
      obtain rfl := by simpa [construct, State.mz_create] using heco
      exact absurd hsame (hstack d co (hold d co hd hco))
    · exact hs.stack d e co eco (hold d co hd hco) (hold e eco he heco) hsame
  · intro k' d hown
    by_cases hk : k' = k
    · subst hk
      simp [construct, State.mz_create] at hown
    · obtain ⟨co, hco, hstk⟩ := hs.owned k' d (by
        simpa [construct, State.mz_create, hk] using hown)
      have hd : d ≠ c := by
        rintro rfl
        simpa [hnew] using hs.obj_of_co hco
      exact ⟨co, by simpa [construct, State.mz_create, hd] using hco, hstk⟩
  · intro hrun d o ho
    by_cases hd : d = c
    · subst hd
      obtain rfl := by simpa [construct] using ho
      simp [construct, controlOf, hinside, MzCoroutine.State.new]
    · have hcontrol := hs.control hrun d o (by simpa [construct, hd] using ho)
      simpa [construct, controlOf, hinside] using hcontrol

theorem destroy_alone (hs : Alone s) (hlive : (s.obj c).isSome) (hout : s.inside ≠ some c) :
    ∃ t, s.destroy c = some t ∧ Alone t ∧ t.mz.mem = s.mz.mem := by
  obtain ⟨co, hc⟩ := Option.isSome_iff_exists.1 ((hs.object_iff c).1 hlive)
  obtain ⟨mz, hmz⟩ : ∃ mz, s.mz.mz_destory c = some mz := by simp [State.mz_destory, hc]
  obtain ⟨co', hc', hmem, hgtls, hcos, howner⟩ := State.destory_spec hmz
  obtain rfl : co = co' := by simpa [hc] using hc'
  refine ⟨_, by rw [destroy, hmz, Option.map_some], ?_, hmem⟩
  have hold : ∀ d dco, mz.cos d = some dco → d ≠ c ∧ s.mz.cos d = some dco := by
    intro d dco hd
    rw [hcos] at hd
    by_cases hdc : d = c
    · subst hdc
      simp at hd
    · exact ⟨hdc, by simpa [hdc] using hd⟩
  have hnot : ∀ k', mz.owner k' ≠ some c := by
    intro k' hown
    rcases howner with ⟨heq, hne⟩ | ⟨heq, hown'⟩
    · rw [heq] at hown
      obtain ⟨dco, hdco, rfl⟩ := hs.owned k' c hown
      obtain rfl : co = dco := by simpa [hc] using hdco
      exact hne hown
    · by_cases hk : k' = co.share_stack
      · simp [heq, hk] at hown
      · obtain ⟨dco, hdco, rfl⟩ := hs.owned k' c (by simpa [heq, hk] using hown)
        obtain rfl : co = dco := by simpa [hc] using hdco
        exact hk rfl
  refine
    { object_iff := ?_
      unused := fun d dco hd => hs.unused d dco (hold d dco hd).2
      stack := fun d e dco eco hd he =>
        hs.stack d e dco eco (hold d dco hd).2 (hold e eco he).2
      owned := ?_
      running := by
        intro d hd
        exact hs.running d (hgtls ▸ hd)
      entered := ?_
      control := ?_ }
  · intro d
    by_cases hd : d = c
    · subst hd
      simp [hcos]
    · simpa [hcos, hd] using hs.object_iff d
  · intro k' d hown
    have hd : d ≠ c := by
      rintro rfl
      exact hnot k' hown
    obtain ⟨dco, hdco, hstk⟩ := hs.owned k' d ((howner.owner_iff hd k').1 hown)
    exact ⟨dco, by simpa [hcos, hd] using hdco, hstk⟩
  · intro d hd
    have hdc : d ≠ c := by
      rintro rfl
      exact hout hd
    simpa [hdc] using hs.entered d hd
  · intro hrun d o ho
    have hdc : d ≠ c := by
      rintro rfl
      simp at ho
    have hcontrol := hs.control hrun d o (by simpa [hdc] using ho)
    simpa [controlOf, hgtls] using hcontrol

theorem Resume_control (o : MzCoroutine.State) :
    o.Resume.control = .caller ∨ o.Resume.control = .body := by
  unfold MzCoroutine.State.Resume
  by_cases hready : (if o.force_stop_ then { o with state_ := .FINISHED } else o).state_ = .READY
  · exact Or.inr (by simp [hready])
  · exact Or.inl (by simp [hready, MzCoroutine.State.returnState])

/-- What a switch leaves of a coroutine: all but the stack pointer. -/
def kept (co : Co Stk) : Bool × SaveStack × Stk :=
  (co.is_end, co.save_stack, co.share_stack)

omit [DecidableEq Stk] in
theorem exists_kept {mz mz' : State Stk} {co : Co Stk}
    (hcos : ∀ d, (mz'.cos d).map kept = (mz.cos d).map kept) (hd : mz'.cos d = some co) :
    ∃ co', mz.cos d = some co' ∧ co.is_end = co'.is_end ∧ co.save_stack = co'.save_stack ∧
      co.share_stack = co'.share_stack := by
  have hmap := hcos d
  rw [hd] at hmap
  obtain ⟨co', hco', heq⟩ := Option.map_eq_some_iff.1 hmap.symm
  simp only [kept, Prod.mk.injEq] at heq
  exact ⟨co', hco', heq.1.symm, heq.2.1.symm, heq.2.2.symm⟩

omit [DecidableEq Stk] in
/-- Control moves into the object `c` or out of it. -/
theorem Alone.move (hs : Alone s) {o : MzCoroutine.State} (hc : (s.obj c).isSome)
    (hinside : s.inside = some c ∨ s.inside = none) (hobj : t.obj = Function.update s.obj c (some o))
    (hcos : ∀ d, (t.mz.cos d).map kept = (s.mz.cos d).map kept)
    (howned : ∀ k d, t.mz.owner k = some d → ∃ co, t.mz.cos d = some co ∧ co.share_stack = k)
    (hrunning : ∀ d, t.mz.gtls_co = some d → t.inside = some d)
    (hentered : t.inside = some c ∨ t.inside = none)
    (hcontrol : t.aborted = false → s.aborted = false ∧ o.control = t.controlOf c) : Alone t where
  object_iff := by
    intro d
    have hsome : (t.mz.cos d).isSome = (s.mz.cos d).isSome := by
      simpa using congrArg Option.isSome (hcos d)
    rw [hsome, hobj]
    by_cases hd : d = c
    · subst hd
      simpa using (hs.object_iff d).1 hc
    · simpa [hd] using hs.object_iff d
  unused := by
    intro d co hco
    obtain ⟨co', hco', hend, hsave, -⟩ := exists_kept hcos hco
    rw [hend, hsave]
    exact hs.unused d co' hco'
  stack := by
    intro d e co eco hco heco hsame
    obtain ⟨co', hco', -, -, hstk⟩ := exists_kept hcos hco
    obtain ⟨eco', heco', -, -, hestk⟩ := exists_kept hcos heco
    rw [hstk, hestk] at hsame
    exact hs.stack d e co' eco' hco' heco' hsame
  owned := howned
  running := hrunning
  entered := by
    intro d hd
    rcases hentered with hin | hin
    · rw [hin] at hd
      cases hd
      simp [hobj]
    · rw [hin] at hd
      cases hd
  control := by
    intro hrun d p hp
    obtain ⟨hbefore, hnow⟩ := hcontrol hrun
    rw [hobj] at hp
    by_cases hd : d = c
    · subst hd
      obtain rfl : o = p := by simpa using hp
      exact hnow
    · have hcd : ¬ c = d := fun heq => hd heq.symm
      have hcaller := hs.control hbefore d p (by simpa [hd] using hp)
      have hbefore : s.controlOf d = .caller := by
        rcases hinside with hin | hin <;> simp [controlOf, hin, hcd]
      have hafter : t.controlOf d = .caller := by
        rcases hentered with hin | hin <;> simp [controlOf, hin, hcd]
      rw [hcaller, hbefore, hafter]

theorem Resume_alone (hs : Alone s) (hrun : s.aborted = false) (hlive : (s.obj c).isSome)
    (hmain : s.inside = none) (ptr : Nat) :
    ∃ t, s.Resume L c ptr = some t ∧ Alone t ∧ t.mz.mem = s.mz.mem := by
  obtain ⟨o, ho⟩ := Option.isSome_iff_exists.1 hlive
  obtain ⟨co, hc⟩ := Option.isSome_iff_exists.1 ((hs.object_iff c).1 hlive)
  have hpc : o.control = .caller := by
    rw [hs.control hrun c o ho]
    simp [controlOf, hmain]
  have hstep : o.step .Resume = some o.Resume := by simp [MzCoroutine.State.step, hpc]
  rcases Resume_control o with hback | hbody
  · obtain ⟨t, ht, hta, hmz⟩ := hs.call ho hstep (hback.trans hpc.symm)
    obtain ⟨_, o', ho', hstep', rfl⟩ := call_spec ht
    obtain rfl : o = _ := by simpa [ho] using ho'
    obtain rfl : o.Resume = o' := by simpa [hstep] using hstep'
    exact ⟨_, by simp [Objects.Resume, ho, hstep, hback], hta, by rw [hmz]⟩
  · have howner : s.mz.owner co.share_stack = none ∨ s.mz.owner co.share_stack = some c := by
      cases hown : s.mz.owner co.share_stack with
      | none =>
          exact Or.inl rfl
      | some d =>
          obtain ⟨dco, hd, hstk⟩ := hs.owned _ d hown
          rw [hs.stack d c dco co hd hc hstk]
          exact Or.inr rfl
    obtain ⟨hlive, hunused⟩ := hs.unused c co hc
    obtain ⟨mz, hmz, hmem, hcos, hown, hgtls⟩ : ∃ mz, s.mz.mz_resume L c ptr = some mz ∧
        mz.mem = s.mz.mem ∧ mz.cos = s.mz.cos ∧
        mz.owner = Function.update s.mz.owner co.share_stack (some c) ∧ mz.gtls_co = some c :=
      resume_alone hc hlive hunused howner
    refine ⟨{ s with
      mz := mz, obj := Function.update s.obj c (some o.Resume), inside := some c },
      by simp [Objects.Resume, ho, hstep, hbody, hmz], ?_, hmem⟩
    refine hs.move (by simp [ho]) (Or.inr hmain) rfl (by simp [hcos]) ?_ ?_ (Or.inl rfl) ?_
    · intro k d hd
      simp only [hown] at hd
      simp only [hcos]
      by_cases hk : k = co.share_stack
      · subst hk
        obtain rfl : c = d := by simpa using hd
        exact ⟨co, hc, rfl⟩
      · exact hs.owned k d (by simpa [hk] using hd)
    · intro d hd
      simpa [hgtls] using hd
    · intro _
      exact ⟨hrun, by simp [controlOf, hgtls, hbody]⟩

omit [DecidableEq Stk] in
theorem suspend_alone (hs : Alone s) (hrun : s.aborted = false) (hgtls : s.mz.gtls_co = some c)
    (how : MzCoroutine.Suspension) (sp : Nat) :
    ∃ t, s.suspend c how sp = some t ∧ Alone t ∧ t.mz.mem = s.mz.mem := by
  have hin : s.inside = some c := hs.running c hgtls
  obtain ⟨o, ho⟩ := Option.isSome_iff_exists.1 (hs.entered c hin)
  obtain ⟨co, hc⟩ := Option.isSome_iff_exists.1 ((hs.object_iff c).1 (hs.entered c hin))
  have hpc : o.control = .body := by
    rw [hs.control hrun c o ho]
    simp [controlOf, hin, hgtls]
  have hstep : o.step (.suspend how) = some (o.suspend how) := by
    simp [MzCoroutine.State.step, hpc]
  have hcos : ∀ d, (Function.update s.mz.cos c (some { co with reg_sp := sp }) d).map kept =
      (s.mz.cos d).map kept := by
    intro d
    by_cases hd : d = c
    · subst hd
      simp [hc, kept]
    · simp [hd]
  refine ⟨{ s with
    mz := { s.mz with
      cos := Function.update s.mz.cos c (some { co with reg_sp := sp }), gtls_co := none }
    obj := Function.update s.obj c (some (o.suspend how)) }, ?_, ?_, rfl⟩
  · simp [Objects.suspend, Objects.call, State.mz_yield, ho, hstep, hgtls, hc]
  refine hs.move (by simp [ho]) (Or.inl hin) rfl hcos ?_ (by simp) (Or.inl hin) ?_
  · intro k d hd
    obtain ⟨dco, hdco, hstk⟩ := hs.owned k d hd
    by_cases hdc : d = c
    · subst hdc
      obtain rfl : co = dco := by simpa [hc] using hdco
      exact ⟨{ co with reg_sp := sp }, by simp, hstk⟩
    · exact ⟨dco, by simpa [hdc] using hdco, hstk⟩
  · intro _
    exact ⟨hrun, by simp [controlOf, hin, (o.suspend_frame how).1]⟩

omit [DecidableEq Stk] in
theorem resumeReturn_alone (hs : Alone s) (hrun : s.aborted = false) (hin : s.inside = some c)
    (hgtls : s.mz.gtls_co = none) :
    ∃ t, s.resumeReturn c = some t ∧ Alone t ∧ t.mz.mem = s.mz.mem := by
  obtain ⟨o, ho⟩ := Option.isSome_iff_exists.1 (hs.entered c hin)
  have hpc : o.control = .switched := by
    rw [hs.control hrun c o ho]
    simp [controlOf, hin, hgtls]
  have hstep : o.step .resumeReturn = some o.returnState := by
    simp [MzCoroutine.State.step, hpc]
  refine ⟨{ s with obj := Function.update s.obj c (some o.returnState), inside := none },
    by simp [Objects.resumeReturn, Objects.call, ho, hstep], ?_, rfl⟩
  refine hs.move (by simp [ho]) (Or.inl hin) rfl (fun _ => rfl) hs.owned ?_ (Or.inr rfl) ?_
  · intro d hd
    simp [hgtls] at hd
  · intro _
    exact ⟨hrun, rfl⟩

omit [DecidableEq Stk] in
theorem bodyReturn_alone (hs : Alone s) (hrun : s.aborted = false)
    (hgtls : s.mz.gtls_co = some c) :
    ∃ t, s.bodyReturn c = some t ∧ Alone t ∧ t.mz.mem = s.mz.mem := by
  have hin : s.inside = some c := hs.running c hgtls
  obtain ⟨o, ho⟩ := Option.isSome_iff_exists.1 (hs.entered c hin)
  have hpc : o.control = .body := by
    rw [hs.control hrun c o ho]
    simp [controlOf, hin, hgtls]
  have hstep : o.step .bodyReturn = some o.coEntryReturn := by
    simp [MzCoroutine.State.step, hpc]
  refine ⟨{ s with obj := Function.update s.obj c (some o.coEntryReturn), aborted := true },
    by simp [Objects.bodyReturn, Objects.call, ho, hstep], ?_, rfl⟩
  exact hs.move (by simp [ho]) (Or.inl hin) rfl (fun _ => rfl) hs.owned hs.running (Or.inl hin)
    (by simp)

omit [DecidableEq Stk] in
/-- A call that any thread may make at any time. -/
theorem notify_alone (hs : Alone s) (hrun : s.aborted = false) (hlive : (s.obj c).isSome)
    (b : MzCoroutine.Action) (f : MzCoroutine.State → MzCoroutine.State)
    (hb : ∀ o : MzCoroutine.State, o.step b = if o.control ≠ .aborted then some (f o) else none)
    (hf : ∀ o, (f o).control = o.control) :
    ∃ t, s.call c b = some t ∧ Alone t ∧ t.mz.mem = s.mz.mem := by
  obtain ⟨o, ho⟩ := Option.isSome_iff_exists.1 hlive
  have hpc : o.control ≠ .aborted := by
    rw [hs.control hrun c o ho, controlOf]
    split_ifs <;> simp
  obtain ⟨t, ht, hta, hmz⟩ := hs.call ho ((hb o).trans (if_pos hpc)) (hf o)
  exact ⟨t, ht, hta, by rw [hmz]⟩

omit [DecidableEq Stk] in
/-- Memory is no part of the invariant. -/
theorem write_alone (hs : Alone s) (mem : Memory) :
    Alone { s with mz := { s.mz with mem := mem } } :=
  ⟨hs.object_iff, hs.unused, hs.stack, hs.owned, hs.running, hs.entered, hs.control⟩

/-- The effect of a call on memory. -/
def effect (L : Layout Stk) (mem : Memory) : Action Stk → Memory
  | .construct _ share_stack protector _ _ =>
      mem.store (L.stack share_stack).align_retptr protector
  | .write addr byte => mem.store addr [byte]
  | _ => mem

theorem alone_step (hs : Alone s) (ha : Permitted s a) :
    ∃ t, s.step L a = some t ∧ Alone t ∧ t.mz.mem = effect L s.mz.mem a := by
  obtain ⟨hrun, ha⟩ := ha
  unfold step
  rw [if_neg (by simp [hrun])]
  cases a with
  | construct c k protector now ptr =>
      exact ⟨_, rfl, construct_alone hs ha.1 ha.2.1 ha.2.2 protector now ptr, rfl⟩
  | destroy c =>
      exact destroy_alone hs ha.1 ha.2
  | Resume c ptr =>
      exact Resume_alone hs hrun ha.1 ha.2 ptr
  | suspend c how sp =>
      exact suspend_alone hs hrun ha how sp
  | resumeReturn c =>
      exact resumeReturn_alone hs hrun ha.1 ha.2
  | bodyReturn c =>
      exact bodyReturn_alone hs hrun ha
  | Wake c =>
      exact notify_alone hs hrun ha .Wake (·.Wake) (fun _ => rfl) (fun _ => rfl)
  | SetUpdateFlag c =>
      exact notify_alone hs hrun ha .SetUpdateFlag (·.SetUpdateFlag) (fun _ => rfl) (fun _ => rfl)
  | Stop c =>
      exact notify_alone hs hrun ha .Stop (·.Stop) (fun _ => rfl) (fun _ => rfl)
  | UpdateState c now =>
      exact notify_alone hs hrun ha (.UpdateState now) (fun o => (o.UpdateState now).2)
        (fun _ => rfl) (fun o => (o.UpdateState_frame now).1)
  | write addr byte =>
      exact ⟨_, rfl, write_alone hs _, rfl⟩

/-! ## The history of one object -/

/-- The object that an action calls, and how. -/
def Action.called : Action Stk → Option (CoId × MzCoroutine.Action)
  | .Resume c _ => some (c, .Resume)
  | .suspend c how _ => some (c, .suspend how)
  | .resumeReturn c => some (c, .resumeReturn)
  | .bodyReturn c => some (c, .bodyReturn)
  | .Wake c => some (c, .Wake)
  | .SetUpdateFlag c => some (c, .SetUpdateFlag)
  | .Stop c => some (c, .Stop)
  | .UpdateState c now => some (c, .UpdateState now)
  | _ => none

/-- What an action is for the object `c`. -/
def Action.on (c : CoId) (a : Action Stk) : List MzCoroutine.Action :=
  match a.called with
  | some (d, b) => if d = c then [b] else []
  | none => []

/-- An action that calls an object does to the objects what the call does. -/
theorem step_called {b : MzCoroutine.Action} (hcalled : a.called = some (d, b))
    (h : s.step L a = some t) : ∃ u, s.call d b = some u ∧ t.obj = u.obj := by
  unfold step at h
  split_ifs at h
  cases a with
  | Resume c ptr =>
      cases hcalled
      obtain ⟨o, ho, hrest⟩ := Option.bind_eq_some_iff.1 h
      obtain ⟨o', ho', hrest⟩ := Option.bind_eq_some_iff.1 hrest
      refine ⟨{ s with obj := Function.update s.obj d (some o') }, by simp [call, ho, ho'], ?_⟩
      split_ifs at hrest
      · obtain ⟨mz, -, rfl⟩ := Option.map_eq_some_iff.1 hrest
        rfl
      · cases hrest
        rfl
  | suspend c how sp =>
      cases hcalled
      obtain ⟨u, hu, hrest⟩ := Option.bind_eq_some_iff.1 h
      obtain ⟨mz, -, rfl⟩ := Option.map_eq_some_iff.1 hrest
      exact ⟨u, hu, rfl⟩
  | resumeReturn c =>
      cases hcalled
      obtain ⟨u, hu, rfl⟩ := Option.map_eq_some_iff.1 h
      exact ⟨u, hu, rfl⟩
  | bodyReturn c =>
      cases hcalled
      obtain ⟨u, hu, rfl⟩ := Option.map_eq_some_iff.1 h
      exact ⟨u, hu, rfl⟩
  | Wake c =>
      cases hcalled
      exact ⟨t, h, rfl⟩
  | SetUpdateFlag c =>
      cases hcalled
      exact ⟨t, h, rfl⟩
  | Stop c =>
      cases hcalled
      exact ⟨t, h, rfl⟩
  | UpdateState c now =>
      cases hcalled
      exact ⟨t, h, rfl⟩
  | _ =>
      cases hcalled

/-- An object is new after a step, or the step was a run of its own. -/
theorem step_obj {o : MzCoroutine.State} (h : s.step L a = some t) (ho : t.obj c = some o) :
    (∃ k protector now ptr, a = .construct c k protector now ptr ∧ o = .new now) ∨
      ∃ o', s.obj c = some o' ∧ MzCoroutine.coroutine.exec o' (a.on c) = some o := by
  cases hcalled : a.called with
  | some called =>
      obtain ⟨d, b⟩ := called
      obtain ⟨u, hu, hobj⟩ := step_called hcalled h
      obtain ⟨p, p', hp, hstep, rfl⟩ := call_spec hu
      rw [hobj] at ho
      refine Or.inr ?_
      by_cases hd : d = c
      · subst hd
        obtain rfl : p' = o := by simpa using ho
        exact ⟨p, hp, by simp [Action.on, hcalled, Machine.exec, hstep]⟩
      · have hcd : ¬ c = d := fun heq => hd heq.symm
        exact ⟨o, by simpa [hcd] using ho, by simp [Action.on, hcalled, hd]⟩
  | none =>
      have hon : a.on c = [] := by simp [Action.on, hcalled]
      rw [hon]
      unfold step at h
      split_ifs at h
      cases a with
      | construct d k protector now ptr =>
          cases h
          by_cases hd : c = d
          · subst hd
            obtain rfl : _ = o := by simpa [construct] using ho
            exact Or.inl ⟨k, protector, now, ptr, rfl, rfl⟩
          · exact Or.inr ⟨o, by simpa [construct, hd] using ho, rfl⟩
      | destroy d =>
          obtain ⟨mz, -, rfl⟩ := Option.map_eq_some_iff.1 h
          by_cases hd : c = d
          · simp [hd] at ho
          · exact Or.inr ⟨o, by simpa [hd] using ho, rfl⟩
      | write addr byte =>
          cases h
          exact Or.inr ⟨o, ho, rfl⟩
      | _ =>
          cases hcalled

/-- An object that is there after a run was constructed in it, and the calls on it since then are a
run of `MzCoroutine.coroutine` from its construction to where it is, whatever happened to the other
objects in between. -/
theorem object_history {tr : List (Action Stk)} {o : MzCoroutine.State}
    (hexec : (objects L).exec init tr = some t) (ho : t.obj c = some o) :
    ∃ tr₁ k protector now ptr tr₂, tr = tr₁ ++ .construct c k protector now ptr :: tr₂ ∧
      MzCoroutine.coroutine.exec (.new now) (tr₂.flatMap (Action.on c)) = some o := by
  induction tr using List.reverseRecOn generalizing t o with
  | nil =>
      cases hexec
      simp [init] at ho
  | append_singleton tr a ih =>
      obtain ⟨s, hs, hlast⟩ := ((objects L).exec_append).1 hexec
      have hstep : s.step L a = some t := ((objects L).exec_singleton).1 hlast
      rcases step_obj hstep ho with ⟨k, protector, now, ptr, rfl, rfl⟩ | ⟨o', ho', hrun⟩
      · exact ⟨tr, k, protector, now, ptr, [], rfl, rfl⟩
      · obtain ⟨tr₁, k, protector, now, ptr, tr₂, rfl, hbefore⟩ := ih hs ho'
        refine ⟨tr₁, k, protector, now, ptr, tr₂ ++ [a], by simp, ?_⟩
        rw [List.flatMap_append, List.flatMap_singleton]
        exact (MzCoroutine.coroutine.exec_append).2 ⟨o', hbefore, hrun⟩

/-! ## Runs -/

/-- A run in which the callers keep their promises can be taken, so no assertion of the library
fails; memory changes by the calls' own writes only, every save buffer is as `mz_create` made it,
one object at most is inside its `Resume`, and each has gone through a run of its own. -/
theorem objects_independent {tr : List (Action Stk)}
    (hpermitted : (objects L).Along Permitted init tr) :
    ∃ t, (objects L).exec init tr = some t ∧
      t.mz.mem = tr.foldl (effect L) (fun _ => 0) ∧
      (∀ c co, t.mz.cos c = some co → Unused co.save_stack) ∧
      (t.aborted = false → ∀ c o, t.obj c = some o →
        (o.control ≠ .caller ↔ t.inside = some c)) ∧
      ∀ c o, t.obj c = some o →
        ∃ tr₁ k protector now ptr tr₂, tr = tr₁ ++ .construct c k protector now ptr :: tr₂ ∧
          MzCoroutine.coroutine.exec (.new now) (tr₂.flatMap (Action.on c)) = some o := by
  have hstep : ∀ (s : Objects Stk) (mem : Memory) (a : Action Stk),
      Alone s ∧ s.mz.mem = mem → Permitted s a →
        ∃ t, (objects L).step s a = some t ∧ Alone t ∧ t.mz.mem = effect L mem a := by
    rintro s mem a ⟨hs, rfl⟩ ha
    exact alone_step hs ha
  obtain ⟨t, ht, hta, hmem⟩ := (objects L).exec_refines hstep ⟨alone_init, rfl⟩ hpermitted
  refine ⟨t, ht, hmem, fun c co hc => (hta.unused c co hc).2, ?_, fun c o => object_history ht⟩
  intro hrun c o ho
  rw [hta.control hrun c o ho, controlOf]
  by_cases hin : t.inside = some c
  · by_cases hgtls : t.mz.gtls_co = some c <;> simp [hin, hgtls]
  · simp [hin]

theorem twoStacks_large : 16 + 8 * 2 + 8 < 64 := by omega

theorem twoStacks_bound (k : Bool) : (bif k then 8192 else 4096) + 64 ≤ 18446744073709551616 := by
  cases k <;> decide

theorem twoStacks_apart (i j : Bool) (hne : i ≠ j) :
    Apart (bif i then 8192 else 4096) 64 (bif j then 8192 else 4096) 64 := by
  cases i <;> cases j
  · exact absurd rfl hne
  · exact Or.inl (by decide)
  · exact Or.inr (by decide)
  · exact absurd rfl hne

/-- Two share stacks of 64 bytes. -/
def twoStacks : Layout Bool where
  stack k :=
    { ptr := bif k then 8192 else 4096
      sz := 64
      large := twoStacks_large
      bound := twoStacks_bound k }
  apart := twoStacks_apart

/-- The first object waits for data and the second runs when the first is woken and destroyed. -/
def destroysWaiting : List (Action Bool) :=
  [.construct 0 false [1] 0 100, .construct 1 true [1] 0 200, .Resume 0 0,
    .suspend 0 .HangUp 4128, .resumeReturn 0, .Resume 1 0, .Wake 0, .destroy 0]

theorem objects_independent_two :
    ∃ t, (objects twoStacks).exec init destroysWaiting = some t ∧ t.inside = some 1 ∧
      t.obj 0 = none ∧ t.mz.mem = destroysWaiting.foldl (effect twoStacks) (fun _ => 0) := by
  have hpermitted : (objects twoStacks).Along Permitted init destroysWaiting := by
    refine .cons _ rfl ⟨rfl, rfl, rfl, by simp [init, State.init]⟩
      (.cons _ rfl ⟨rfl, rfl, rfl, ?_⟩ (.cons _ rfl ⟨rfl, rfl, rfl⟩ (.cons _ rfl ⟨rfl, rfl⟩
        (.cons _ rfl ⟨rfl, rfl, rfl⟩ (.cons _ rfl ⟨rfl, rfl, rfl⟩ (.cons _ rfl ⟨rfl, rfl⟩
          (.cons _ rfl ⟨rfl, rfl, by decide⟩ trivial)))))))
    intro d co hco
    have hd : d = 0 := by
      by_contra hne
      simp [construct, State.mz_create, init, State.init, hne] at hco
    subst hd
    cases hco
    decide
  obtain ⟨t, ht, hmem, -⟩ := objects_independent hpermitted
  refine ⟨t, ht, ?_, ?_, hmem⟩
  · cases ht
    rfl
  · cases ht
    rfl

end Objects

end Coroutine
end Mozi
