import InsenseCVM.Collections.Environments
import Mathlib.Data.Option.Basic

/-!
# Scope stacks as frames

What a scope stack is for: a list of frames, the innermost first, each an environment. A name is
looked up in the frames in turn, an assignment goes to the innermost frame that has the name, and a
binding to the innermost frame. `Shows` says that the values of a stack stand for those of the
frames, through any relation between the two, and each operation of the stack is the one of the
frames. So is every sequence of operations in which each declaration is followed by a store of a
value: `frames_run`.
-/

namespace InsenseCVM

/-- Environments, the innermost first. -/
abbrev Frames (W : Type) := List (CString → Option W)

namespace Frames

variable {W : Type}

/-- The value in the innermost frame that has the name. -/
def lookup (k : CString) : Frames W → Option W
  | [] => none
  | frame :: frames => (frame k).or (lookup k frames)

/-- A new value in the innermost frame that has the name. -/
def assign (k : CString) (v : W) : Frames W → Option (Frames W)
  | [] => none
  | frame :: frames =>
    if (frame k).isSome then some (Function.update frame k (some v) :: frames)
    else (assign k v frames).map (frame :: ·)

/-- A value for the name in the innermost frame. -/
def bind (k : CString) (v : W) : Frames W → Option (Frames W)
  | [] => none
  | frame :: frames => some (Function.update frame k (some v) :: frames)

/-- An empty frame on top. -/
def enter (frames : Frames W) : Frames W := (fun _ => none) :: frames

/-- The frames without the innermost one. -/
def exit : Frames W → Option (Frames W)
  | [] => none
  | _ :: frames => some frames

end Frames

namespace ScopeStack

open ListMap

variable {V W : Type} {R R' : V → W → Prop} {s : ScopeStack V} {levels : List ℕ}
  {es es' : ℕ → List (Located V)} {frames frames' : Frames W} {k : CString} {v : V} {x : W}

/-- The entries of a level stand for a frame. -/
def ShowsFrame (R : V → W → Prop) (entries : List (Located V)) (frame : CString → Option W) :
    Prop :=
  ∃ env, Denotes entries env ∧ ∀ k, Option.Rel R (env k) (frame k)

/-- The levels stand for the frames. -/
def ShowsLevels (R : V → W → Prop) (es : ℕ → List (Located V)) (levels : List ℕ)
    (frames : Frames W) : Prop :=
  List.Forall₂ (fun a frame => ShowsFrame R (es a) frame) levels frames

/-- The stack stands for the frames. -/
def Shows (R : V → W → Prop) (s : ScopeStack V) (frames : Frames W) : Prop :=
  ∃ levels es, s.Holds levels es ∧ ShowsLevels R es levels frames

theorem ShowsFrame.mono {entries : List (Located V)} {frame : CString → Option W}
    (h : ShowsFrame R entries frame) (hR : ∀ v x, R v x → R' v x) :
    ShowsFrame R' entries frame := by
  obtain ⟨env, hdenotes, hrel⟩ := h
  have hmono : ∀ {o o'}, Option.Rel R o o' → Option.Rel R' o o' := fun h => by
    cases h with
    | some h => exact .some (hR _ _ h)
    | none => exact .none
  exact ⟨env, hdenotes, fun k => hmono (hrel k)⟩

/-- Only the entries of the levels count. -/
theorem ShowsLevels.congr (h : ShowsLevels R es levels frames)
    (hes : ∀ b ∈ levels, es' b = es b) : ShowsLevels R es' levels frames := by
  induction h with
  | nil => exact .nil
  | cons hframe _ ih =>
    refine .cons ?_ (ih fun b hb => hes b (List.mem_cons_of_mem _ hb))
    rwa [hes _ List.mem_cons_self]

/-- Values that stand for the frames still do when the relation grows. -/
theorem Shows.mono (h : s.Shows R frames) (hR : ∀ v x, R v x → R' v x) : s.Shows R' frames := by
  obtain ⟨levels, es, hs, hlevels⟩ := h
  exact ⟨levels, es, hs, hlevels.imp fun _ _ h => h.mono hR⟩

theorem ShowsFrame.answersAt {a : ℕ} {frame : CString → Option W} {o : Option V}
    (h : ShowsFrame R (es a) frame) (hans : AnswersAt es k a o) : Option.Rel R o (frame k) := by
  obtain ⟨env, hdenotes, hrel⟩ := h
  rcases hans with ⟨rfl, hnone⟩ | ⟨e, he, rfl, rfl⟩
  · have hk : env k = none := by
      by_contra hne
      obtain ⟨e, he, hek⟩ := mem_keysOf.1 ((hdenotes.keys k).2 hne)
      exact hnone e he hek
    rw [← hk]
    exact hrel k
  · rw [hdenotes.value e he]
    exact hrel _

theorem ShowsLevels.answers {o : Option V} (h : ShowsLevels R es levels frames)
    (hans : Answers es k levels o) : Option.Rel R o (frames.lookup k) := by
  induction hans generalizing frames with
  | nil =>
    cases h
    exact .none
  | found hat =>
    obtain ⟨frame, frames, hframe, -, rfl⟩ := List.forall₂_cons_left_iff.1 h
    have hrel := hframe.answersAt hat
    unfold Frames.lookup
    cases hx : frame k with
    | none =>
      rw [hx] at hrel
      cases hrel
    | some x =>
      rw [hx] at hrel
      exact hrel
  | next hat _ ih =>
    obtain ⟨frame, frames, hframe, hrest, rfl⟩ := List.forall₂_cons_left_iff.1 h
    have hrel := hframe.answersAt hat
    unfold Frames.lookup
    cases hx : frame k with
    | none => exact ih hrest
    | some x =>
      rw [hx] at hrel
      cases hrel

/-- `ScopeStack_load` looks the name up. -/
theorem Shows.load (h : s.Shows R frames) (hk : frames.lookup k = some x) :
    ∃ v s', s.load k = some (some v, s') ∧ s'.Shows R frames ∧ R v x := by
  obtain ⟨levels, es, hs, hlevels⟩ := h
  obtain ⟨o, s', hload, hsame, hans⟩ := hs.load k
  have hrel := hlevels.answers hans
  rw [hk] at hrel
  cases hrel with
  | some hv => exact ⟨_, s', hload, ⟨levels, es, hsame.holds, hlevels⟩, hv⟩

/-- `ScopeStack_load` finds nothing where the frames have no value. -/
theorem Shows.load_none (h : s.Shows R frames) (hk : frames.lookup k = none) :
    ∃ s', s.load k = some (none, s') ∧ s'.Shows R frames := by
  obtain ⟨levels, es, hs, hlevels⟩ := h
  obtain ⟨o, s', hload, hsame, hans⟩ := hs.load k
  have hrel := hlevels.answers hans
  rw [hk] at hrel
  cases hrel with
  | none => exact ⟨s', hload, levels, es, hsame.holds, hlevels⟩

/-- `ScopeStack_declare` and `ScopeStack_store` bind the name. -/
theorem Shows.bind (h : s.Shows R frames) (hbind : frames.bind k x = some frames') (hv : R v x) :
    ∃ s₁ s₂, s.declare k = some s₁ ∧ s₁.store k (some v) = some (true, s₂) ∧
      s₂.Shows R frames' := by
  obtain ⟨levels, es, hs, hlevels⟩ := h
  cases frames with
  | nil => cases hbind
  | cons frame frames =>
    obtain rfl := Option.some.inj hbind
    obtain ⟨a, levels, ⟨env, hdenotes, hrel⟩, hrest, rfl⟩ := List.forall₂_cons_right_iff.1 hlevels
    obtain ⟨s₁, s₂, es', hdeclare, hstore, hs₂, hdenotes', hother⟩ :=
      hs.bind_denotes hdenotes k v
    refine ⟨s₁, s₂, hdeclare, hstore, a :: levels, es', hs₂, .cons ⟨_, hdenotes', fun j => ?_⟩ ?_⟩
    · by_cases hj : j = k
      · subst hj
        rw [Function.update_self, Function.update_self]
        exact .some hv
      · rw [Function.update_of_ne hj, Function.update_of_ne hj]
        exact hrel j
    · exact ShowsLevels.congr hrest fun b hb =>
        hother b fun hba => (List.nodup_cons.1 hs.distinct).1 (hba ▸ hb)

/-- The innermost frame that has a name, in a list of levels. -/
theorem ShowsLevels.assign (h : ShowsLevels R es levels frames)
    (hassign : frames.assign k x = some frames') (hdistinct : levels.Nodup) (hv : R v x) :
    ∃ pre a post, levels = pre ++ a :: post ∧ (∀ b ∈ pre, ∀ e ∈ es b, e.2.key ≠ k) ∧
      (∃ e ∈ es a, e.2.key = k) ∧
      ∀ es', Stored es es' k (some v) a → ShowsLevels R es' levels frames' := by
  induction h generalizing frames' with
  | nil => cases hassign
  | @cons a frame levels frames hframe hrest ih =>
    obtain ⟨env, hdenotes, hrel⟩ := hframe
    obtain ⟨hnew, hdistinct⟩ := List.nodup_cons.1 hdistinct
    have hne : ∀ b ∈ levels, b ≠ a := fun b hb hba => hnew (hba ▸ hb)
    have hk := hrel k
    unfold Frames.assign at hassign
    cases hfk : frame k with
    | some y =>
      -- the innermost frame has the name, so its level does
      simp only [hfk, Option.isSome_some, if_true] at hassign
      obtain rfl := Option.some.inj hassign
      rw [hfk] at hk
      have henv : env k ≠ none := fun hnone => by
        rw [hnone] at hk
        cases hk
      obtain ⟨e, he, hek⟩ := mem_keysOf.1 ((hdenotes.keys k).2 henv)
      refine ⟨[], a, levels, rfl, by simp, ⟨e, he, hek⟩, ?_⟩
      rintro es' ⟨d, rest, hperm, hdk, rfl⟩
      refine .cons ⟨Function.update env k (some v), ?_, fun j => ?_⟩
        (ShowsLevels.congr hrest fun b hb => Function.update_of_ne (hne b hb) ..)
      · rw [Function.update_self]
        exact hdk ▸ (hdenotes.of_perm hperm.symm).replaced v
      · by_cases hj : j = k
        · subst hj
          rw [Function.update_self, Function.update_self]
          exact .some hv
        · rw [Function.update_of_ne hj, Function.update_of_ne hj]
          exact hrel j
    | none =>
      simp only [hfk, Option.isSome_none, Bool.false_eq_true, if_false] at hassign
      obtain ⟨outer, houter, rfl⟩ := Option.map_eq_some_iff.1 hassign
      rw [hfk] at hk
      have henv : env k = none := by
        cases henv : env k with
        | none => rfl
        | some y =>
          rw [henv] at hk
          cases hk
      have hpass : ∀ e ∈ es a, e.2.key ≠ k := fun e he hek =>
        (hdenotes.keys k).1 (mem_keysOf.2 ⟨e, he, hek⟩) henv
      obtain ⟨pre, b, post, rfl, hpre, hdecl, hstored⟩ := ih houter hdistinct
      refine ⟨a :: pre, b, post, rfl, ?_, hdecl, fun es' hes' => .cons ?_ (hstored es' hes')⟩
      · intro c hc
        rcases List.mem_cons.1 hc with rfl | hc
        · exact hpass
        · exact hpre c hc
      · obtain ⟨d, rest, -, -, rfl⟩ := hes'
        rw [Function.update_of_ne (hne b (by simp)).symm]
        exact ⟨env, hdenotes, hrel⟩

/-- `ScopeStack_store` assigns. -/
theorem Shows.assign (h : s.Shows R frames) (hassign : frames.assign k x = some frames')
    (hv : R v x) : ∃ s', s.store k (some v) = some (true, s') ∧ s'.Shows R frames' := by
  obtain ⟨levels, es, hs, hlevels⟩ := h
  obtain ⟨pre, a, post, rfl, hpre, hdecl, hstored⟩ := hlevels.assign hassign hs.distinct hv
  obtain ⟨s', es', hstore, hsame, hes'⟩ := hs.store hpre hdecl (some v)
  exact ⟨s', hstore, _, es', hsame.holds, hstored es' hes'⟩

/-- `ScopeStack_enterScope` puts an empty frame on top. -/
theorem Shows.enter (h : s.Shows R frames) : (enterScope (some s)).Shows R frames.enter := by
  obtain ⟨levels, es, hs, hlevels⟩ := h
  refine ⟨_, _, hs.enterScope, .cons ⟨_, ?_, fun _ => .none⟩ (hlevels.congr fun b hb => ?_)⟩
  · rw [Function.update_self]
    exact denotes_nil
  · exact Function.update_of_ne (Nat.ne_of_lt (hs.bounded b hb)) ..

theorem shows_enterScope : (enterScope (none : Option (ScopeStack V))).Shows R
    (Frames.enter ([] : Frames W)) :=
  ⟨[0], _, enterScope_null, .cons ⟨_, denotes_nil, fun _ => .none⟩ .nil⟩

/-- `ScopeStack_exitScope` takes the innermost frame away. -/
theorem Shows.exit (h : s.Shows R frames) (hexit : frames.exit = some frames') :
    ∃ s', s.exitScope = some s' ∧ s'.Shows R frames' := by
  obtain ⟨levels, es, hs, hlevels⟩ := h
  cases frames with
  | nil => cases hexit
  | cons frame frames =>
    obtain rfl := Option.some.inj hexit
    obtain ⟨a, levels, -, hrest, rfl⟩ := List.forall₂_cons_right_iff.1 hlevels
    obtain ⟨s', hrun, hs', -⟩ := hs.exitScope
    exact ⟨s', hrun, levels, es, hs', hrest⟩

/-! ### Runs -/

/-- Operations on the scopes of a program. -/
inductive Operation (V : Type)
  | enter
  | exit
  | bind (name : CString) (value : V)
  | assign (name : CString) (value : V)
  | load (name : CString)

/-- An operation on frames, with what it finds. -/
def Operation.onFrames (frames : Frames V) : Operation V → Option (List (Option V) × Frames V)
  | enter => some ([], frames.enter)
  | exit => frames.exit.map ([], ·)
  | bind name value => (frames.bind name value).map ([], ·)
  | assign name value => (frames.assign name value).map ([], ·)
  | load name => some ([frames.lookup name], frames)

/-- An operation of the scope stack, with what it finds. -/
def Operation.onStack (s : ScopeStack V) : Operation V → Option (List (Option V) × ScopeStack V)
  | enter => some ([], enterScope (some s))
  | exit => s.exitScope.map ([], ·)
  | bind name value => do
    let s ← s.declare name
    let (_, s) ← s.store name (some value)
    return ([], s)
  | assign name value => do
    let (stored, s) ← s.store name (some value)
    if stored then return ([], s) else none
  | load name => do
    let (value, s) ← s.load name
    return ([value], s)

/-- Operations one after the other, with all that they find. -/
def runOperations {σ : Type} (step : σ → Operation V → Option (List (Option V) × σ)) :
    σ → List (Operation V) → Option (List (Option V) × σ)
  | s, [] => some ([], s)
  | s, operation :: operations => do
    let (found, s) ← step s operation
    let (later, s) ← runOperations step s operations
    return (found ++ later, s)

theorem Shows.operation {frames frames' : Frames V} {operation : Operation V}
    {found : List (Option V)} (h : s.Shows Eq frames)
    (hrun : operation.onFrames frames = some (found, frames')) :
    ∃ s', operation.onStack s = some (found, s') ∧ s'.Shows Eq frames' := by
  cases operation with
  | enter =>
    cases hrun
    exact ⟨_, rfl, h.enter⟩
  | exit =>
    obtain ⟨frames₁, hexit, heq⟩ := Option.map_eq_some_iff.1 hrun
    cases heq
    obtain ⟨s', hs, hs'⟩ := h.exit hexit
    exact ⟨s', by simp [Operation.onStack, hs], hs'⟩
  | bind name value =>
    obtain ⟨frames₁, hbind, heq⟩ := Option.map_eq_some_iff.1 hrun
    cases heq
    obtain ⟨s₁, s₂, hdeclare, hstore, hs'⟩ := h.bind hbind rfl
    exact ⟨s₂, by simp [Operation.onStack, hdeclare, hstore], hs'⟩
  | assign name value =>
    obtain ⟨frames₁, hassign, heq⟩ := Option.map_eq_some_iff.1 hrun
    cases heq
    obtain ⟨s', hstore, hs'⟩ := h.assign hassign rfl
    exact ⟨s', by simp [Operation.onStack, hstore], hs'⟩
  | load name =>
    cases hrun
    cases hk : frames.lookup name with
    | none =>
      obtain ⟨s', hload, hs'⟩ := h.load_none hk
      exact ⟨s', by simp [Operation.onStack, hload], hs'⟩
    | some x =>
      obtain ⟨v, s', hload, hs', rfl⟩ := h.load hk
      exact ⟨s', by simp [Operation.onStack, hload], hs'⟩

/-- **Every sequence of operations that is possible on the frames is possible on the scope stack
that shows them, finds the same values, and leaves a stack that shows the frames that are left.** -/
theorem frames_run {frames frames' : Frames V} {operations : List (Operation V)}
    {found : List (Option V)} (h : s.Shows Eq frames)
    (hrun : runOperations (fun frames o => o.onFrames frames) frames operations =
      some (found, frames')) :
    ∃ s', runOperations (fun s o => o.onStack s) s operations = some (found, s') ∧
      s'.Shows Eq frames' := by
  induction operations generalizing s frames found with
  | nil =>
    cases hrun
    exact ⟨s, rfl, h⟩
  | cons operation operations ih =>
    simp only [runOperations, Option.bind_eq_bind, Option.bind_eq_some_iff] at hrun
    obtain ⟨⟨first, frames₁⟩, hfirst, ⟨later, frames₂⟩, hlater, heq⟩ := hrun
    cases heq
    obtain ⟨s₁, hs₁, h₁⟩ := h.operation hfirst
    obtain ⟨s₂, hs₂, h₂⟩ := ih h₁ hlater
    exact ⟨s₂, by simp [runOperations, hs₁, hs₂], h₂⟩

/-- A name bound in an inner scope hides the outer one until the scope is left. -/
def hidden : List (Operation ℕ) :=
  [.bind [120] 1, .enter, .bind [120] 2, .load [120], .exit, .assign [120] 3, .load [120],
    .load [121]]

theorem frames_run_hidden : ∃ (s' : ScopeStack ℕ) (frames' : Frames ℕ),
    runOperations (fun s o => o.onStack s) (enterScope none) hidden =
      some ([some 2, some 3, none], s') ∧ s'.Shows Eq frames' := by
  obtain ⟨s', hrun, hs'⟩ := frames_run shows_enterScope
    (rfl : runOperations (fun frames o => o.onFrames frames) (Frames.enter []) hidden =
      some ([some 2, some 3, none], _))
  exact ⟨s', _, hrun, hs'⟩

end ScopeStack

end InsenseCVM
