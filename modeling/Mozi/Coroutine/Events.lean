import Mozi.Coroutine.Switching

/-!
# Events — every event of a thread is a run of the library

A switch writes a return address and a `reg` array.  Seen from the library these are writes of
bytes by the main coroutine, by the running body or to the heap, so an event is a run of the
library that keeps its assumptions (`event_performs`), and the invariants of both hold in every
state of a thread (`sound_run`).
-/

namespace Mozi
namespace Coroutine

open Foundation

variable {Stk : Type} [DecidableEq Stk] {L : Layout Stk} {img : Image L}
  {s t u : State Stk} {c d : CoId}

/-! ## Runs of the library -/

/-- A run of the library that keeps its assumptions. -/
def Performs (L : Layout Stk) (s : State Stk) (acts : List (Action Stk)) (t : State Stk) : Prop :=
  (coroutines L).Along (State.Contract L) s acts ∧ (coroutines L).exec s acts = some t

theorem Performs.nil (s : State Stk) : Performs L s [] s :=
  ⟨(coroutines L).along_nil _ s, rfl⟩

theorem Performs.append {acts acts' : List (Action Stk)} (h : Performs L s acts t)
    (h' : Performs L t acts' u) : Performs L s (acts ++ acts') u := by
  refine ⟨((coroutines L).along_append).2 ⟨h.1, ?_⟩, ((coroutines L).exec_append).2 ⟨t, h.2, h'.2⟩⟩
  intro t' ht'
  have hsame : t = t' := Option.some.inj (h.2.symm.trans ht')
  rw [← hsame]
  exact h'.1

theorem Performs.single {a : Action Stk} (hcontract : s.Contract L a)
    (hstep : s.step L a = some t) : Performs L s [a] t :=
  ⟨Machine.Along.cons (coroutines L) hstep hcontract ((coroutines L).along_nil _ t),
    ((coroutines L).exec_singleton).2 hstep⟩

/-- The writes of bytes to consecutive addresses. -/
def writes : Nat → List UInt8 → List (Action Stk)
  | _, [] => []
  | addr, b :: bs => .write addr b :: writes (addr + 1) bs

theorem performs_writes {addr : Nat} {bytes : List UInt8}
    (h : ∀ x b, addr ≤ x → x < addr + bytes.length → s.Contract L (.write x b)) :
    Performs L s (writes addr bytes) (s.withMem (s.mem.store addr bytes)) := by
  induction bytes generalizing s addr with
  | nil =>
      rw [Memory.store_nil]
      exact Performs.nil s
  | cons b bs ih =>
      rw [List.length_cons] at h
      have hfirst : Performs L s [.write addr b] (s.withMem (s.mem.store addr [b])) :=
        Performs.single (h addr b (by omega) (by omega)) rfl
      have hrest : Performs L (s.withMem (s.mem.store addr [b])) (writes (addr + 1) bs)
          (s.withMem ((s.mem.store addr [b]).store (addr + 1) bs)) :=
        ih fun x b' hlow hhigh => h x b' (by omega) (by omega)
      have hstore := s.mem.store_append addr [b] bs
      rw [List.length_singleton] at hstore
      rw [hstore] at hrest
      exact hfirst.append hrest

/-- A change of memory inside a range that may be written. -/
theorem performs_change {mem : Memory} {addr n : Nat}
    (hout : ∀ x, x < addr ∨ addr + n ≤ x → mem x = s.mem x)
    (h : ∀ x b, addr ≤ x → x < addr + n → s.Contract L (.write x b)) :
    Performs L s (writes addr (mem.load addr n)) (s.withMem mem) := by
  have hwrites : Performs L s (writes addr (mem.load addr n))
      (s.withMem (s.mem.store addr (mem.load addr n))) :=
    performs_writes (by rwa [Memory.length_load])
  rwa [Memory.store_load_of_outside hout] at hwrites

omit [DecidableEq Stk] in
theorem mem_writes {a : Action Stk} {addr : Nat} {bytes : List UInt8} (h : a ∈ writes addr bytes) :
    ∃ x b, a = .write x b := by
  induction bytes generalizing addr with
  | nil =>
      simp [writes] at h
  | cons b bs ih =>
      rcases List.mem_cons.1 h with rfl | hrest
      · exact ⟨addr, b, rfl⟩
      · exact ih hrest

/-! ## Events -/

open Thread

/-- What holds of the library in every state of a thread. -/
structure Sound (img : Image L) (s : State Stk) : Prop where
  wf : State.Wf L s
  placed : Placed img s

/-- The action resumes or destroys the coroutine. -/
def Action.Concerns (d : CoId) : Action Stk → Prop
  | .mz_resume c _ => c = d
  | .mz_destory c => c = d
  | _ => False

def Event.Concerns (d : CoId) : Event Stk → Prop
  | .mz_resume c _ => c = d
  | .mz_destory c => c = d
  | _ => False

omit [DecidableEq Stk] in
/-- An object may be written by whoever saves a context in it. -/
theorem object_write (hs : Placed img s) (hc : Object img s c) (x : Nat) (b : UInt8)
    (hlow : c ≤ x) (hhigh : x < c + 72) : s.Contract L (.write x b) := by
  refine Or.inr ⟨fun k => ?_, fun d co hd => ?_⟩
  · exact (hs.share_stacks c hc k).mono hlow (by omega) (Nat.le_refl _) (Nat.le_refl _)
  · exact ((hs.buffers d co hd).2 c hc).symm.mono hlow (by omega) (Nat.le_refl _) (Nat.le_refl _)

omit [DecidableEq Stk] in
/-- The stack of the main coroutine may be written by anybody. -/
theorem main_stack_write (hs : Placed img s) (x : Nat) (b : UInt8) (hlow : img.main_stack ≤ x)
    (hhigh : x < img.main_stack + img.main_stack_sz) : s.Contract L (.write x b) := by
  refine Or.inr ⟨fun k => ?_, fun d co hd => ?_⟩
  · exact (img.main_stack_apart k).mono hlow (by omega) (Nat.le_refl _) (Nat.le_refl _)
  · exact (hs.buffers d co hd).1.symm.mono hlow (by omega) (Nat.le_refl _) (Nat.le_refl _)

theorem toNat_push {v : BitVec 64} (h : 8 ≤ v.toNat) : (v - 8).toNat = v.toNat - 8 := by
  have hv := v.isLt
  rw [BitVec.toNat_sub]
  change (2 ^ 64 - 8 + v.toNat) % 2 ^ 64 = v.toNat - 8
  omega

/-- A return address pushed to where its caller may write. -/
theorem performs_push {sp ret : BitVec 64} (h8 : 8 ≤ sp.toNat)
    (h : ∀ x b, sp.toNat - 8 ≤ x → x < sp.toNat → s.Contract L (.write x b)) :
    ∃ acts, (∀ a ∈ acts, ∃ x b, a = .write x b) ∧
      Performs L s acts (s.withMem (s.mem.writeWord (sp - 8).toNat ret)) := by
  refine ⟨writes (sp - 8).toNat ((s.mem.writeWord (sp - 8).toNat ret).load (sp - 8).toNat 8),
    fun a ha => mem_writes ha, performs_change ?_ ?_⟩
  · intro x hx
    exact Memory.writeWord_outside hx
  · intro x b hlow hhigh
    rw [toNat_push h8] at hlow hhigh
    exact h x b hlow (by omega)

/-- A context saved in an object. -/
theorem performs_save (hs : Placed img s) (hc : Object img s c) (ctx : Context) :
    ∃ acts, (∀ a ∈ acts, ∃ x b, a = .write x b) ∧
      Performs L s acts (s.withMem (ctx.store s.mem c)) :=
  ⟨_, fun _ ha => mem_writes ha,
    performs_change (fun _ hx => Context.store_outside hx) (object_write hs hc)⟩

omit [DecidableEq Stk] in
theorem yield_spec {sp : Nat} (h : s.mz_yield sp = some t) :
    ∃ c co, s.gtls_co = some c ∧ s.cos c = some co ∧
      t =
        { s with
          cos := Function.update s.cos c (some { co with reg_sp := sp })
          gtls_co := none } := by
  unfold State.mz_yield at h
  cases hrun : s.gtls_co with
  | none =>
      simp [hrun] at h
  | some c =>
      simp only [hrun] at h
      obtain ⟨co, hc, rfl⟩ := Option.map_eq_some_iff.1 h
      exact ⟨c, co, rfl, hc, rfl⟩

omit [DecidableEq Stk] in
/-- The library of a thread after a switch. -/
theorem switch_lib {th : Thread Stk} {lib : State Stk} {from_co to_co : CoId}
    (hfrom : from_co + 72 ≤ 2 ^ 64) (hto : to_co + 72 ≤ 2 ^ 64) :
    (th.switch img lib from_co to_co).lib =
      lib.withMem ((Context.ofCpu th.cpu).store
        (lib.mem.writeWord (th.cpu.gpr .rsp - 8).toNat th.cpu.rip) from_co) := by
  rw [switch, (swap_spec img hfrom hto).1]

/-- A coroutine that leaves: it pushes its return address, gives the processor back, and its
context is saved. -/
theorem performs_leave {th : Thread Stk} {co : Co Stk} {lib : State Stk} {a : Action Stk}
    (hrun : th.lib.gtls_co = some c) (hc : th.lib.cos c = some co) (hin : InStack (L := L) th)
    (ha : ∀ d, ¬ a.Concerns d) (hcontract : ∀ mem, (th.lib.withMem mem).Contract L a)
    (hstep : ∀ mem, (th.lib.withMem mem).step L a = some (lib.withMem mem))
    (hmem : lib.mem = th.lib.mem) (hplaced : Placed img lib) (hobject : Object img lib c) :
    ∃ acts, (∀ a ∈ acts, ∀ d, ¬ a.Concerns d) ∧
      Performs L th.lib acts (th.switch img lib c img.main_co).lib := by
  obtain ⟨hlow, hhigh⟩ := hin c co hrun hc
  let pushed := th.lib.mem.writeWord (th.cpu.gpr .rsp - 8).toNat th.cpu.rip
  -- The return address goes to the live region of the running coroutine.
  obtain ⟨push, hpush_writes, hpush⟩ : ∃ acts, (∀ a ∈ acts, ∃ x b, a = .write x b) ∧
      Performs L th.lib acts (th.lib.withMem pushed) :=
    performs_push (by omega) fun x b hx hx' => Or.inl ⟨c, co, hrun, hc, by omega, by omega⟩
  have hleave : Performs L (th.lib.withMem pushed) [a] (lib.withMem pushed) :=
    Performs.single (hcontract pushed) (hstep pushed)
  obtain ⟨save, hsave_writes, hsave⟩ : ∃ acts, (∀ a ∈ acts, ∃ x b, a = .write x b) ∧
      Performs L (lib.withMem pushed) acts
        (lib.withMem ((Context.ofCpu th.cpu).store pushed c)) :=
    performs_save (hplaced.withMem pushed) hobject (Context.ofCpu th.cpu)
  refine ⟨push ++ ([a] ++ save), ?_, ?_⟩
  · intro b hb d
    rcases List.mem_append.1 hb with hb | hb
    · obtain ⟨x, v, rfl⟩ := hpush_writes b hb
      exact id
    · rcases List.mem_append.1 hb with hb | hb
      · rw [List.mem_singleton.1 hb]
        exact ha d
      · obtain ⟨x, v, rfl⟩ := hsave_writes b hb
        exact id
  · rw [switch_lib (hplaced.bound c hobject) img.main_co_bound, hmem]
    exact hpush.append (hleave.append hsave)

omit [DecidableEq Stk] in
/-- The memory of a new object outside its registers is not touched. -/
theorem newReg_outside {mem : Memory} {c x : Nat} {fp sp : BitVec 64} {fpucw : BitVec 16}
    {mxcsr : BitVec 32} (h : x < c ∨ c + 72 ≤ x) : newReg mem c fp sp fpucw mxcsr x = mem x := by
  unfold newReg
  rw [Memory.writeWord_outside (by omega), Memory.writeWord_outside (by omega),
    Memory.writeWord_outside (by omega), Memory.writeWord_outside (by omega)]
  exact Memory.store_outside (by rwa [List.length_replicate])

omit [DecidableEq Stk] in
/-- An object that is updated or gone, with its buffer. -/
theorem placed_update {x : Option (Co Stk)} (hs : Placed img s) {co : Co Stk}
    (hc : s.cos c = some co) (hx : ∀ co', x = some co' → co'.save_stack = co.save_stack)
    (hcos : t.cos = Function.update s.cos c x) : Placed img t := by
  refine hs.mono ?_
  intro d co' hd
  by_cases hdc : d = c
  · subst hdc
    have hsave := hx co' (by simpa [hcos] using hd)
    exact ⟨co, hc, Or.inl ⟨by rw [hsave], by rw [hsave]⟩⟩
  · exact ⟨co', by simpa [hcos, hdc] using hd, Or.inl ⟨rfl, rfl⟩⟩

/-- Every event of a thread is a run of the library in which nobody else is resumed or destroyed,
and it leaves the objects in their places. -/
theorem event_performs {th th' : Thread Stk} {e : Event Stk} (hs : Sound img th.lib)
    (hcontract : th.Contract img e) (h : th.step img e = some th') :
    (∃ acts, (∀ a ∈ acts, ∀ d, a.Concerns d → e.Concerns d) ∧ Performs L th.lib acts th'.lib) ∧
      Placed img th'.lib := by
  cases e with
  | code cpu =>
      cases h
      exact ⟨⟨[], by simp, Performs.nil _⟩, hs.placed⟩
  | write addr byte =>
      simp only [Thread.step, Option.map_eq_some_iff] at h
      obtain ⟨lib, hstep, rfl⟩ := h
      refine ⟨⟨[.write addr byte], by simp [Action.Concerns],
        Performs.single hcontract.1 hstep⟩, ?_⟩
      cases hstep
      exact hs.placed.withMem _
  | mz_thread_init =>
      cases h
      exact ⟨⟨[], by simp, Performs.nil _⟩, hs.placed⟩
  | mz_create c k save_stack_sz ptr fp =>
      simp only [Thread.step, Option.map_eq_some_iff] at h
      obtain ⟨lib, hstep, rfl⟩ := h
      obtain ⟨hlib, hroom, hclear, hapart⟩ := hcontract
      have hplaced : Placed img lib := by
        cases hstep
        exact placed_create hs.placed hroom hclear hapart
      have hobject : Object img lib c := by
        cases hstep
        exact Or.inr ⟨_, Function.update_self ..⟩
      obtain ⟨acts, hacts, hreg⟩ : ∃ acts, (∀ a ∈ acts, ∃ x b, a = .write x b) ∧
          Performs L lib acts (lib.withMem (newReg lib.mem c fp
            (BitVec.ofNat 64 (L.stack k).align_retptr) th.gtls_fpucw th.gtls_mxcsr)) :=
        ⟨_, fun _ ha => mem_writes ha,
          performs_change (fun _ hx => newReg_outside hx) (object_write hplaced hobject)⟩
      refine ⟨⟨[.mz_create c k save_stack_sz ptr] ++ acts, ?_,
        (Performs.single hlib hstep).append hreg⟩, hplaced.withMem _⟩
      intro a ha d
      rcases List.mem_append.1 ha with ha | ha
      · rw [List.mem_singleton.1 ha]
        exact False.elim
      · obtain ⟨x, b, rfl⟩ := hacts a ha
        exact False.elim
  | mz_resume c ptr =>
      simp only [Thread.step, Option.map_eq_some_iff] at h
      obtain ⟨lib, hstep, rfl⟩ := h
      obtain ⟨hlib, hclear, hlow, hhigh⟩ := hcontract
      have hresume := (Option.ite_none_right_eq_some.1 hstep).2
      have hplaced : Placed img lib := placed_resume hs.placed hclear hresume
      let pushed := lib.mem.writeWord (th.cpu.gpr .rsp - 8).toNat th.cpu.rip
      -- The return address goes to the stack of the main coroutine.
      obtain ⟨push, hpush_writes, hpush⟩ : ∃ acts, (∀ a ∈ acts, ∃ x b, a = .write x b) ∧
          Performs L lib acts (lib.withMem pushed) :=
        performs_push (by omega) fun x b hx hx' =>
          main_stack_write hplaced x b (by omega) (by omega)
      obtain ⟨save, hsave_writes, hsave⟩ : ∃ acts, (∀ a ∈ acts, ∃ x b, a = .write x b) ∧
          Performs L (lib.withMem pushed) acts
            (lib.withMem ((Context.ofCpu th.cpu).store pushed img.main_co)) :=
        performs_save (hplaced.withMem pushed) (Or.inl rfl) (Context.ofCpu th.cpu)
      have hto : c + 72 ≤ 2 ^ 64 := by
        obtain ⟨co, hco, _⟩ := State.resume_spec hresume
        exact hs.placed.bound c (Or.inr ⟨co, hco⟩)
      rw [switch_lib img.main_co_bound hto]
      refine ⟨⟨[.mz_resume c ptr] ++ (push ++ save), ?_,
        (Performs.single hlib hstep).append (hpush.append hsave)⟩, hplaced.withMem _⟩
      intro a ha d
      rcases List.mem_append.1 ha with ha | ha
      · rw [List.mem_singleton.1 ha]
        exact id
      · rcases List.mem_append.1 ha with ha | ha
        · obtain ⟨x, b, rfl⟩ := hpush_writes a ha
          exact False.elim
        · obtain ⟨x, b, rfl⟩ := hsave_writes a ha
          exact False.elim
  | mz_yield =>
      simp only [Thread.step, Option.bind_eq_some_iff, Option.map_eq_some_iff] at h
      obtain ⟨c, hrun, lib, hstep, rfl⟩ := h
      obtain ⟨c', co, hrun', hc, hlib⟩ := yield_spec hstep
      have hsame : c' = c := Option.some.inj (hrun'.symm.trans hrun)
      subst hsame
      have hcos : lib.cos = Function.update th.lib.cos c'
          (some { co with reg_sp := (th.cpu.gpr .rsp).toNat }) := by rw [hlib]
      have hplaced : Placed img lib := placed_update hs.placed hc (by simp) hcos
      have hobject : Object img lib c' := Or.inr ⟨_, hcos ▸ Function.update_self ..⟩
      obtain ⟨acts, hacts, hperforms⟩ := performs_leave hrun hc hcontract
        (a := .mz_yield (th.cpu.gpr .rsp).toNat) (fun _ => id)
        (fun _ c'' co'' hrun'' hc'' => by
          have := hcontract c'' co'' hrun'' hc''
          omega)
        (fun mem => by simp [State.step, State.mz_yield, State.withMem, hrun, hc, hlib])
        (by rw [hlib]) hplaced hobject
      refine ⟨⟨acts, fun a ha d hd => absurd hd (hacts a ha d), hperforms⟩, ?_⟩
      rw [switch_lib (hplaced.bound c' hobject) img.main_co_bound]
      exact hplaced.withMem _
  | mz_exit =>
      simp only [Thread.step, Option.bind_eq_some_iff, Option.map_eq_some_iff] at h
      obtain ⟨c, hrun, lib, hstep, rfl⟩ := h
      obtain ⟨c', co, hrun', hc, hown, hlib⟩ := State.exit_spec hstep
      have hsame : c' = c := Option.some.inj (hrun'.symm.trans hrun)
      subst hsame
      have hcos : lib.cos = Function.update th.lib.cos c'
          (some { co with is_end := true, reg_sp := (th.cpu.gpr .rsp).toNat }) := by rw [hlib]
      have hplaced : Placed img lib := placed_update hs.placed hc (by simp) hcos
      have hobject : Object img lib c' := Or.inr ⟨_, hcos ▸ Function.update_self ..⟩
      obtain ⟨acts, hacts, hperforms⟩ := performs_leave hrun hc hcontract
        (a := .mz_exit (th.cpu.gpr .rsp).toNat) (fun _ => id) (fun _ => trivial)
        (fun mem => by
          simp [State.step, State.mz_exit, State.mz_yield, State.withMem, hrun, hc, hown, hlib])
        (by rw [hlib]) hplaced hobject
      refine ⟨⟨acts, fun a ha d hd => absurd hd (hacts a ha d), hperforms⟩, ?_⟩
      rw [switch_lib (hplaced.bound c' hobject) img.main_co_bound]
      exact hplaced.withMem _
  | mz_destory c =>
      simp only [Thread.step, Option.map_eq_some_iff] at h
      obtain ⟨lib, hstep, rfl⟩ := h
      obtain ⟨co, hc, _, _, hcos, _⟩ := State.destory_spec hstep
      exact ⟨⟨[.mz_destory c], by simp [Action.Concerns, Event.Concerns],
        Performs.single hcontract hstep⟩, placed_update hs.placed hc (by simp) hcos⟩

end Coroutine
end Mozi
