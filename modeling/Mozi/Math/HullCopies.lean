import Mathlib.Tactic.Common
import Mozi.Math.ConvexHull

/-!
# HullCopies — which copies show their source

A view into a vector always leads to the vector its hull owns.  The converse fails: a hull that owns
a vector and is assigned a view of foreign vertices keeps both, and a copy of it shows the vector.
`shows_source_iff` says that this is the only way in which a copy differs from its source.
-/

namespace Mozi
namespace Math

open Foundation

universe u

namespace World

variable {V : Type u} {w t : World V} {h other : ConvexHull} {target source address i j b : Nat}
  {vec : List V} {left : List Nat}

/-! ## Vectors -/

theorem release_of_ne {buffers : Nat → Option (List V)} {owned : Option Nat}
    (hne : owned ≠ some b) : release buffers owned b = buffers b := by
  cases owned with
  | none =>
      rfl
  | some old =>
      have hold : b ≠ old := by
        rintro rfl
        exact hne rfl
      exact Function.update_of_ne hold none buffers

@[simp] theorem firstOf_length (vec : List V) : firstOf vec vec.length = some vec := by
  simp [firstOf]

theorem read_ofVector (hvec : w.buffers b = some vec) : w.read (.ofVector b vec) = some vec := by
  simp [read, VertexDataSource.ofVector, hvec]

/-! ## The invariant -/

/-- A hull whose vector is there, with a view of that vector or of foreign vertices. -/
structure Sound (w : World V) (h : ConvexHull) : Prop where
  owned : ∀ b, h.optimized_vertex_buf_ = some b → ∃ vec, w.buffers b = some vec
  view : (∀ b, h.vertices_.ptr_ ≠ .buffer b) ∨
    ∃ b vec, h.optimized_vertex_buf_ = some b ∧ w.buffers b = some vec ∧
      h.vertices_ = .ofVector b vec

structure Wf (w : World V) : Prop where
  sound : ∀ i h, w.hulls i = some h → w.Sound h
  /-- no vector belongs to two hulls -/
  owned_once : ∀ i j h k b, w.hulls i = some h → w.hulls j = some k →
    h.optimized_vertex_buf_ = some b → k.optimized_vertex_buf_ = some b → i = j

/-- The target as an operation finds it: a hull, or the members a constructor starts with. -/
def Finds (w : World V) (target : Nat) (h : ConvexHull) : Prop :=
  w.hulls target = some h ∨ w.hulls target = none ∧ h = .init

theorem Finds.hull (hfinds : w.Finds target h) (howned : h.optimized_vertex_buf_ = some b) :
    w.hulls target = some h := by
  rcases hfinds with hhull | ⟨-, rfl⟩
  · exact hhull
  · cases howned

theorem Sound.of_buffers (hh : w.Sound h)
    (hbuffers : ∀ b, h.optimized_vertex_buf_ = some b → t.buffers b = w.buffers b) :
    t.Sound h where
  owned := by
    intro b hb
    rw [hbuffers b hb]
    exact hh.owned b hb
  view := by
    rcases hh.view with hforeign | ⟨b, vec, hb, hvec, hview⟩
    · exact Or.inl hforeign
    · exact Or.inr ⟨b, vec, hb, (hbuffers b hb).trans hvec, hview⟩

theorem sound_ofVector (hvec : w.buffers b = some vec) (indices : List Nat) :
    w.Sound ⟨some b, .ofVector b vec, indices⟩ where
  owned := by
    intro b' hb'
    cases hb'
    exact ⟨vec, hvec⟩
  view := Or.inr ⟨b, vec, rfl, hvec, rfl⟩

/-- A hull without a vector and with a foreign view. -/
theorem sound_none {v : VertexDataSource} (hv : ∀ b, v.ptr_ ≠ .buffer b) (indices : List Nat) :
    w.Sound ⟨none, v, indices⟩ where
  owned := by
    intro b hb
    cases hb
  view := Or.inl hv

/-- A hull without a vector of its own has a foreign view. -/
theorem Sound.foreign (hh : w.Sound h) (hnone : h.optimized_vertex_buf_ = none) (b : Nat) :
    h.vertices_.ptr_ ≠ .buffer b := by
  rcases hh.view with hforeign | ⟨b', vec, hb', -⟩
  · exact hforeign b
  · rw [hnone] at hb'
    cases hb'

/-- A foreign view does not read the vectors. -/
theorem read_foreign {v : VertexDataSource} (hv : ∀ b, v.ptr_ ≠ .buffer b)
    (hexternal : t.external = w.external) : t.read v = w.read v := by
  unfold read
  cases hptr : v.ptr_ with
  | nullptr => rfl
  | external e => rw [hexternal]
  | buffer b => exact absurd hptr (hv b)

/-! ## The invariant is kept -/

/-- A new state of one hull, with the others as they were or with less. -/
theorem Wf.update (hw : w.Wf) {f : Nat → Option ConvexHull} {k : ConvexHull}
    (ht : t.hulls = Function.update f target (some k)) (hk : t.Sound k)
    (hrest : ∀ j h', j ≠ target → f j = some h' → t.Sound h' ∧
      (∃ h₀, w.hulls j = some h₀ ∧
        ∀ b, h'.optimized_vertex_buf_ = some b → h₀.optimized_vertex_buf_ = some b) ∧
      ∀ b, k.optimized_vertex_buf_ = some b → h'.optimized_vertex_buf_ ≠ some b) : t.Wf where
  sound := by
    intro i h' hi
    rw [ht] at hi
    by_cases htarget : i = target
    · subst htarget
      rw [Function.update_self] at hi
      cases hi
      exact hk
    · rw [Function.update_of_ne htarget] at hi
      exact (hrest i h' htarget hi).1
  owned_once := by
    intro i j h' k' b hi hj hb hb'
    rw [ht] at hi hj
    by_cases hitarget : i = target
    · by_cases hjtarget : j = target
      · rw [hitarget, hjtarget]
      · subst hitarget
        rw [Function.update_self] at hi
        rw [Function.update_of_ne hjtarget] at hj
        cases hi
        exact absurd hb' ((hrest j k' hjtarget hj).2.2 b hb)
    · rw [Function.update_of_ne hitarget] at hi
      by_cases hjtarget : j = target
      · subst hjtarget
        rw [Function.update_self] at hj
        cases hj
        exact absurd hb ((hrest i h' hitarget hi).2.2 b hb')
      · rw [Function.update_of_ne hjtarget] at hj
        obtain ⟨-, ⟨h₀, hh₀, hown⟩, -⟩ := hrest i h' hitarget hi
        obtain ⟨-, ⟨k₀, hk₀, hown'⟩, -⟩ := hrest j k' hjtarget hj
        exact hw.owned_once i j h₀ k₀ b hh₀ hk₀ (hown b hb) (hown' b hb')

/-- A vector of another hull stays when the target gives up its own. -/
theorem Wf.release_other (hw : w.Wf) (hfinds : w.Finds target h) {k : ConvexHull}
    (hj : j ≠ target) (hhull : w.hulls j = some k) (hb : k.optimized_vertex_buf_ = some b)
    (buffers : Nat → Option (List V)) :
    release buffers h.optimized_vertex_buf_ b = buffers b := by
  refine release_of_ne fun hold => hj ?_
  exact hw.owned_once j target k h b hhull (hfinds.hull hold) hb hold

/-- The target keeps its vector and takes the foreign view of its source. -/
theorem Wf.sound_foreign (hw : w.Wf) (hfinds : w.Finds target h) (hother : w.Sound other)
    (hnone : other.optimized_vertex_buf_ = none) (indices : List Nat) :
    w.Sound { h with vertices_ := other.vertices_, indices_ := indices } where
  owned := by
    intro b hb
    exact (hw.sound target h (hfinds.hull hb)).owned b hb
  view := Or.inl (hother.foreign hnone)

/-- The address of a new vector belongs to no hull. -/
theorem Wf.new_address (hw : w.Wf) (hfree : w.buffers address = none) {k : ConvexHull}
    (hk : w.hulls j = some k) : k.optimized_vertex_buf_ ≠ some address := by
  intro hb
  obtain ⟨vec, hvec⟩ := (hw.sound j k hk).owned address hb
  rw [hfree] at hvec
  cases hvec

theorem Wf.old_ne (hw : w.Wf) (hfinds : w.Finds target h) (hfree : w.buffers address = none) :
    h.optimized_vertex_buf_ ≠ some address :=
  fun hb => hw.new_address hfree (hfinds.hull hb) hb

/-- What the target keeps belongs to no other hull. -/
theorem Wf.kept_once (hw : w.Wf) (hfinds : w.Finds target h) {k : ConvexHull} (hj : j ≠ target)
    (hk : w.hulls j = some k) :
    ∀ b, h.optimized_vertex_buf_ = some b → k.optimized_vertex_buf_ ≠ some b := by
  intro b hb hb'
  exact hj (hw.owned_once j target k h b hk (hfinds.hull hb) hb' hb)

/-- The others are what they were and the source has given its vector away. -/
theorem Wf.update_moved (hw : w.Wf) {k moved : ConvexHull}
    (ht : t.hulls = Function.update (Function.update w.hulls source (some moved)) target (some k))
    (hk : t.Sound k) (hsource : w.hulls source = some other)
    (hnone : moved.optimized_vertex_buf_ = none) (hforeign : ∀ b, moved.vertices_.ptr_ ≠ .buffer b)
    (hbuffers : ∀ j h' b, j ≠ target → w.hulls j = some h' → h'.optimized_vertex_buf_ = some b →
      t.buffers b = w.buffers b)
    (hrest : ∀ j h', j ≠ target → j ≠ source → w.hulls j = some h' →
      ∀ b, k.optimized_vertex_buf_ = some b → h'.optimized_vertex_buf_ ≠ some b) : t.Wf := by
  refine hw.update ht hk ?_
  intro j h' hj hh'
  by_cases hjsource : j = source
  · subst hjsource
    rw [Function.update_self] at hh'
    cases hh'
    have hnothing : ∀ b, moved.optimized_vertex_buf_ ≠ some b := by
      intro b hb
      rw [hnone] at hb
      cases hb
    refine ⟨⟨fun b hb => absurd hb (hnothing b), Or.inl hforeign⟩, ⟨other, hsource, ?_⟩,
      fun b _ => hnothing b⟩
    exact fun b hb => absurd hb (hnothing b)
  · rw [Function.update_of_ne hjsource] at hh'
    exact ⟨(hw.sound j h' hh').of_buffers fun b => hbuffers j h' b hj hh',
      ⟨h', hh', fun _ hb => hb⟩, hrest j h' hj hjsource hh'⟩

theorem Wf.copyMembers (hw : w.Wf) (hfinds : w.Finds target h)
    (hsource : w.hulls source = some other)
    (hrun : w.copyMembers target h other address = some t) : t.Wf := by
  have hother := hw.sound source other hsource
  unfold World.copyMembers at hrun
  cases howned : other.optimized_vertex_buf_ with
  | none =>
      simp only [howned, Option.some.injEq] at hrun
      subst hrun
      refine hw.update rfl ?_ ?_
      · exact (hw.sound_foreign hfinds hother howned _).of_buffers fun _ _ => rfl
      · intro j h' hj hh'
        exact ⟨(hw.sound j h' hh').of_buffers fun _ _ => rfl, ⟨h', hh', fun _ hb => hb⟩,
          hw.kept_once hfinds hj hh'⟩
  | some b =>
      simp only [howned, Option.bind_eq_some_iff, Option.ite_none_right_eq_some,
        Option.some.injEq] at hrun
      obtain ⟨vec, hvec, hfree, rfl⟩ := hrun
      have hold := hw.old_ne hfinds hfree
      refine hw.update rfl (sound_ofVector ?_ _) ?_
      · exact (release_of_ne hold).trans (Function.update_self ..)
      · intro j h' hj hh'
        refine ⟨(hw.sound j h' hh').of_buffers ?_, ⟨h', hh', fun _ hb => hb⟩, ?_⟩
        · intro b' hb'
          have hne : b' ≠ address := by
            rintro rfl
            exact hw.new_address hfree hh' hb'
          exact (hw.release_other hfinds hj hh' hb' _).trans (Function.update_of_ne hne ..)
        · intro b' hb'
          cases hb'
          exact hw.new_address hfree hh'

theorem Wf.moveMembers (hw : w.Wf) (hfinds : w.Finds target h)
    (hsource : w.hulls source = some other) (hne : source ≠ target)
    (hrun : w.moveMembers target source h other left = some t) : t.Wf := by
  have hother := hw.sound source other hsource
  unfold World.moveMembers at hrun
  cases howned : other.optimized_vertex_buf_ with
  | none =>
      simp only [howned, Option.some.injEq] at hrun
      subst hrun
      refine hw.update_moved rfl ?_ hsource rfl (hother.foreign howned) ?_ ?_
      · exact (hw.sound_foreign hfinds hother howned _).of_buffers fun _ _ => rfl
      · intro j h' b _ _ _
        rfl
      · intro j h' hj _ hh'
        exact hw.kept_once hfinds hj hh'
  | some b =>
      simp only [howned, Option.map_eq_some_iff] at hrun
      obtain ⟨vec, hvec, rfl⟩ := hrun
      refine hw.update_moved rfl (sound_ofVector ?_ _) hsource rfl ?_ ?_ ?_
      · exact (hw.release_other hfinds hne hsource howned _).trans hvec
      · intro b' hptr
        cases hptr
      · intro j h' b' hj hh' hb'
        exact hw.release_other hfinds hj hh' hb' _
      · intro j h' _ hjsource hh' b' hb' hb''
        cases hb'
        exact hjsource (hw.owned_once j source h' other b hh' hsource hb'' howned)

/-! ## What the target shows -/

/-- The target after an operation on another hull. -/
structure Taken (w : World V) (target : Nat) (other : ConvexHull) (t : World V) : Prop where
  hull : ∃ k, t.hulls target = some k ∧ k.indices_ = other.indices_ ∧
    ((∃ b vec, other.optimized_vertex_buf_ = some b ∧ w.buffers b = some vec ∧
        t.read k.vertices_ = some vec) ∨
      other.optimized_vertex_buf_ = none ∧ k.vertices_ = other.vertices_)
  external : t.external = w.external

theorem Wf.copyMembers_taken (hw : w.Wf) (hfinds : w.Finds target h)
    (hrun : w.copyMembers target h other address = some t) : Taken w target other t := by
  unfold World.copyMembers at hrun
  cases hother : other.optimized_vertex_buf_ with
  | none =>
      simp only [hother, Option.some.injEq] at hrun
      subst hrun
      exact ⟨⟨_, Function.update_self .., rfl, Or.inr ⟨hother, rfl⟩⟩, rfl⟩
  | some b =>
      simp only [hother, Option.bind_eq_some_iff, Option.ite_none_right_eq_some,
        Option.some.injEq] at hrun
      obtain ⟨vec, hvec, hfree, rfl⟩ := hrun
      refine ⟨⟨_, Function.update_self .., rfl, Or.inl ⟨b, vec, hother, hvec, ?_⟩⟩, rfl⟩
      exact read_ofVector ((release_of_ne (hw.old_ne hfinds hfree)).trans (Function.update_self ..))

theorem Wf.moveMembers_taken (hw : w.Wf) (hfinds : w.Finds target h)
    (hsource : w.hulls source = some other) (hne : source ≠ target)
    (hrun : w.moveMembers target source h other left = some t) : Taken w target other t := by
  unfold World.moveMembers at hrun
  cases hother : other.optimized_vertex_buf_ with
  | none =>
      simp only [hother, Option.some.injEq] at hrun
      subst hrun
      exact ⟨⟨_, Function.update_self .., rfl, Or.inr ⟨hother, rfl⟩⟩, rfl⟩
  | some b =>
      simp only [hother, Option.map_eq_some_iff] at hrun
      obtain ⟨vec, hvec, rfl⟩ := hrun
      refine ⟨⟨_, Function.update_self .., rfl, Or.inl ⟨b, vec, hother, hvec, ?_⟩⟩, rfl⟩
      exact read_ofVector ((hw.release_other hfinds hne hsource hother _).trans hvec)

/-- The target shows what its source showed. -/
structure ShowsSource (w : World V) (op : HullOp) (t : World V) : Prop where
  vertices : t.getVertexBuffer op.target = w.getVertexBuffer op.source
  indices : t.getIndexBuffer op.target = w.getIndexBuffer op.source

/-- A view into a vector leads to the vector of its own hull, which is there. -/
def OwnViews (w : World V) : Prop :=
  ∀ i h b, w.hulls i = some h → h.vertices_.ptr_ = .buffer b →
    h.optimized_vertex_buf_ = some b ∧ ∃ vec, w.buffers b = some vec

/-- The source owns no vector or shows what is in it, or is assigned to itself. -/
def Authoritative (w : World V) (op : HullOp) : Prop :=
  op.source = op.target ∨ ∀ h b, w.hulls op.source = some h →
    h.optimized_vertex_buf_ = some b → w.read h.vertices_ = w.buffers b

theorem Wf.ownViews (hw : w.Wf) : w.OwnViews := by
  intro i h b hh hptr
  rcases (hw.sound i h hh).view with hforeign | ⟨b', vec, hb', hvec, hview⟩
  · exact absurd hptr (hforeign b)
  · rw [hview] at hptr
    cases hptr
    exact ⟨hb', vec, hvec⟩

theorem Taken.showsSource_iff {op : HullOp} (htaken : Taken w op.target other t) (hw : w.Wf)
    (hsource : w.hulls op.source = some other) (hne : op.source ≠ op.target) :
    ShowsSource w op t ↔ Authoritative w op := by
  obtain ⟨k, hk, hindices, hvertices⟩ := htaken.hull
  have htarget : t.getVertexBuffer op.target = t.read k.vertices_ := by
    rw [getVertexBuffer, hk]
    rfl
  have hshown : w.getVertexBuffer op.source = w.read other.vertices_ := by
    rw [getVertexBuffer, hsource]
    rfl
  have hindex : t.getIndexBuffer op.target = w.getIndexBuffer op.source := by
    rw [getIndexBuffer, getIndexBuffer, hk, hsource, Option.map_some, Option.map_some, hindices]
  rcases hvertices with ⟨b, vec, hb, hvec, hread⟩ | ⟨hnone, hview⟩
  · -- The target shows the vector of the source.
    have hiff : w.Authoritative op ↔ w.read other.vertices_ = some vec := by
      constructor
      · rintro (heq | hall)
        · exact absurd heq hne
        · rw [hall other b hsource hb, hvec]
      · intro hshow
        refine Or.inr fun h' b' hh' hb' => ?_
        rw [hsource] at hh'
        cases hh'
        rw [hb] at hb'
        cases hb'
        rw [hshow, hvec]
    rw [hiff]
    constructor
    · intro hshows
      rw [← hshown, ← hshows.vertices, htarget, hread]
    · intro hshow
      exact ⟨by rw [htarget, hread, hshown, hshow], hindex⟩
  · -- The target shows the foreign vertices of the source.
    have hforeign := (hw.sound _ other hsource).foreign hnone
    refine iff_of_true ⟨?_, hindex⟩ (Or.inr fun h' b' hh' hb' => ?_)
    · rw [htarget, hshown, hview, read_foreign hforeign htaken.external]
    · rw [hsource] at hh'
      cases hh'
      rw [hnone] at hb'
      cases hb'

/-! ## One operation -/

theorem Wf.copy_spec (hw : w.Wf) (op : HullOp) (hfinds : w.Finds op.target h)
    (hsource : w.hulls op.source = some other) (hne : op.source ≠ op.target)
    (hrun : w.copyMembers op.target h other address = some t) :
    t.Wf ∧ (ShowsSource w op t ↔ Authoritative w op) :=
  ⟨hw.copyMembers hfinds hsource hrun,
    (hw.copyMembers_taken hfinds hrun).showsSource_iff hw hsource hne⟩

theorem Wf.move_spec (hw : w.Wf) (op : HullOp) (hfinds : w.Finds op.target h)
    (hsource : w.hulls op.source = some other) (hne : op.source ≠ op.target)
    (hrun : w.moveMembers op.target op.source h other left = some t) :
    t.Wf ∧ (ShowsSource w op t ↔ Authoritative w op) :=
  ⟨hw.moveMembers hfinds hsource hne hrun,
    (hw.moveMembers_taken hfinds hsource hne hrun).showsSource_iff hw hsource hne⟩

theorem Wf.self_spec (hw : w.Wf) {op : HullOp} (heq : op.source = op.target) :
    w.Wf ∧ (ShowsSource w op w ↔ Authoritative w op) :=
  ⟨hw, iff_of_true ⟨by rw [heq], by rw [heq]⟩ (Or.inl heq)⟩

/-- An object that is to be constructed is not its own source. -/
theorem source_ne_of_new (htarget : w.hulls target = none)
    (hsource : w.hulls source = some other) : source ≠ target := by
  rintro rfl
  rw [htarget] at hsource
  cases hsource

theorem Wf.step (hw : w.Wf) {op : HullOp} (hstep : (Math.hulls V).step w op = some t) :
    t.Wf ∧ (ShowsSource w op t ↔ Authoritative w op) := by
  cases op with
  | copyConstruct target source address =>
      obtain ⟨htarget, hrun⟩ := Option.ite_none_right_eq_some.1 hstep
      obtain ⟨other, hsource, hrun⟩ := Option.bind_eq_some_iff.1 hrun
      exact hw.copy_spec (.copyConstruct target source address) (Or.inr ⟨htarget, rfl⟩)
        hsource (source_ne_of_new htarget hsource) hrun
  | copyAssign target source address =>
      obtain ⟨h, htarget, hrun⟩ := Option.bind_eq_some_iff.1 hstep
      obtain ⟨other, hsource, hrun⟩ := Option.bind_eq_some_iff.1 hrun
      split_ifs at hrun with heq
      · cases hrun
        exact hw.self_spec heq
      · exact hw.copy_spec (.copyAssign target source address) (Or.inl htarget) hsource heq
          hrun
  | moveConstruct target source left =>
      obtain ⟨htarget, hrun⟩ := Option.ite_none_right_eq_some.1 hstep
      obtain ⟨other, hsource, hrun⟩ := Option.bind_eq_some_iff.1 hrun
      exact hw.move_spec (.moveConstruct target source left) (Or.inr ⟨htarget, rfl⟩) hsource
        (source_ne_of_new htarget hsource) hrun
  | moveAssign target source left =>
      obtain ⟨h, htarget, hrun⟩ := Option.bind_eq_some_iff.1 hstep
      obtain ⟨other, hsource, hrun⟩ := Option.bind_eq_some_iff.1 hrun
      split_ifs at hrun with heq
      · cases hrun
        exact hw.self_spec heq
      · exact hw.move_spec (.moveAssign target source left) (Or.inl htarget) hsource heq
          hrun

/-! ## Runs -/

/-- Right after each operation of a run the target shows what its source showed, and every view
into a vector leads to the vector of its own hull, exactly if no operation has a source that owns a
vector and shows other vertices. -/
theorem shows_source_iff (hw : w.Wf) {ops : List HullOp} {u : World V}
    (hrun : (Math.hulls V).exec w ops = some u) :
    (Math.hulls V).Along (fun s op => ∀ t, (Math.hulls V).step s op = some t →
        ShowsSource s op t ∧ t.OwnViews) w ops ↔
      (Math.hulls V).Along Authoritative w ops := by
  refine (Math.hulls V).along_congr (I := Wf) ?_ hw hrun
  intro s op t hs hstep
  obtain ⟨ht, hiff⟩ := hs.step hstep
  refine ⟨ht, ?_⟩
  rw [← hiff]
  constructor
  · intro h
    exact (h t hstep).1
  · intro hshows t' hstep'
    rw [hstep] at hstep'
    cases hstep'
    exact ⟨hshows, ht.ownViews⟩

/-- Hull 0 owns a vector with three vertices, hull 1 refers to one foreign vertex. -/
def twoHulls : World Nat where
  hulls i :=
    if i = 0 then
      some
        { optimized_vertex_buf_ := some 0
          vertices_ := .ofVector 0 [1, 2, 3]
          indices_ := [0, 1, 2] }
    else if i = 1 then
      some
        { optimized_vertex_buf_ := none
          vertices_ := { ptr_ := .external 0, size_ := 1 }
          indices_ := [0] }
    else
      none
  buffers b := if b = 0 then some [1, 2, 3] else none
  external _ := [7]

theorem twoHulls_wf : twoHulls.Wf where
  sound := by
    intro i h hh
    simp only [twoHulls] at hh
    split_ifs at hh
    · cases hh
      exact sound_ofVector rfl _
    · cases hh
      refine sound_none ?_ _
      intro b hptr
      cases hptr
  owned_once := by
    intro i j h k b hh hk hb hb'
    simp only [twoHulls] at hh hk
    split_ifs at hh hk
    · omega
    · cases hk
      cases hb'
    · cases hh
      cases hb
    · cases hh
      cases hb

/-- Two hulls are copied and one is moved. -/
theorem shows_source_two_hulls :
    ∃ u, (Math.hulls Nat).exec twoHulls
        [.copyConstruct 2 0 4, .copyAssign 2 1 5, .moveConstruct 3 0 []] = some u ∧
      ((Math.hulls Nat).Along (fun s op => ∀ t, (Math.hulls Nat).step s op = some t →
          ShowsSource s op t ∧ t.OwnViews) twoHulls
          [.copyConstruct 2 0 4, .copyAssign 2 1 5, .moveConstruct 3 0 []] ↔
        (Math.hulls Nat).Along Authoritative twoHulls
          [.copyConstruct 2 0 4, .copyAssign 2 1 5, .moveConstruct 3 0 []]) := by
  have hrun : (Math.hulls Nat).exec twoHulls
      [.copyConstruct 2 0 4, .copyAssign 2 1 5, .moveConstruct 3 0 []] = some _ := rfl
  exact ⟨_, hrun, shows_source_iff twoHulls_wf hrun⟩

/-- Hull 0 is assigned the foreign vertex of hull 1, and its copy shows the three vertices. -/
theorem copy_shows_stale_vector :
    ¬ ∀ (w : World Nat) (ops : List HullOp) (u : World Nat), w.Wf →
      (∀ op, w.Authoritative op) → (Math.hulls Nat).exec w ops = some u →
      (Math.hulls Nat).Along (fun s op => ∀ t, (Math.hulls Nat).step s op = some t →
        ShowsSource s op t ∧ t.OwnViews) w ops := by
  intro h
  have hfresh : ∀ op, twoHulls.Authoritative op := by
    intro op
    refine Or.inr fun h b hh hb => ?_
    simp only [twoHulls] at hh
    split_ifs at hh
    · cases hh
      cases hb
      rfl
    · cases hh
      cases hb
  have hrun : (Math.hulls Nat).exec twoHulls [.copyAssign 0 1 4, .copyConstruct 2 0 4] = some _ :=
    rfl
  obtain ⟨-, hafter⟩ := h twoHulls _ _ twoHulls_wf hfresh hrun
  have hfirst : (Math.hulls Nat).step twoHulls (.copyAssign 0 1 4) = some _ := rfl
  obtain ⟨hcopy, -⟩ := hafter _ hfirst
  have hshows := (hcopy _ rfl).1.vertices
  exact absurd hshows (by decide)

end World

end Math
end Mozi
