import InsenseCVM.Collections.ScopeStack

/-!
# Maps as environments

Where every entry of a list map has a value and no two have one key, what a lookup finds does not
depend on the cursor: the map is an environment, a function from keys. A declaration followed by a
store of a value changes it at the one key, in a map and in the innermost level of a scope stack.
-/

namespace InsenseCVM

/-! ### Environments -/

section

variable {K V : Type} [DecidableEq K] {env : K → Option V} {bs : List (K × V)} {k : K} {v : V}

/-- The environment with each of the keys bound to the value beside it, the last binding of a key
being the one that counts. -/
def bindAll (env : K → Option V) (bs : List (K × V)) : K → Option V :=
  bs.foldl (fun env b => Function.update env b.1 (some b.2)) env

@[simp] theorem bindAll_nil : bindAll env [] = env := rfl

@[simp] theorem bindAll_cons (b : K × V) :
    bindAll env (b :: bs) = bindAll (Function.update env b.1 (some b.2)) bs := rfl

theorem bindAll_concat (b : K × V) :
    bindAll env (bs ++ [b]) = Function.update (bindAll env bs) b.1 (some b.2) := by
  unfold bindAll
  rw [List.foldl_append]
  rfl

/-- The keys that are not bound keep what they had. -/
theorem bindAll_of_notMem (hk : k ∉ bs.map Prod.fst) : bindAll env bs k = env k := by
  induction bs generalizing env with
  | nil => rfl
  | cons b bs ih =>
    rw [List.map_cons, List.mem_cons, not_or] at hk
    rw [bindAll_cons, ih hk.2, Function.update_of_ne hk.1]

/-- Distinct keys get the values beside them. -/
theorem bindAll_of_mem (hdistinct : (bs.map Prod.fst).Nodup) (hb : (k, v) ∈ bs) :
    bindAll env bs k = some v := by
  induction bs generalizing env with
  | nil => cases hb
  | cons b bs ih =>
    rw [List.map_cons, List.nodup_cons] at hdistinct
    rw [bindAll_cons]
    rcases List.mem_cons.1 hb with rfl | hb
    · rw [bindAll_of_notMem hdistinct.1, Function.update_self]
    · exact ih hdistinct.2 hb

end

variable {V : Type} {env : CString → Option V} {k : CString}

/-! ### List maps -/

namespace ListMap

variable {m : ListMap V} {es fs ys : List (Located V)}

/-- The entries are those of the environment. -/
structure Denotes (es : List (Located V)) (env : CString → Option V) : Prop where
  distinct : KeysDistinct es
  keys : ∀ k, k ∈ keysOf es ↔ env k ≠ none
  value : ∀ e ∈ es, e.2.value = env e.2.key

theorem denotes_nil : Denotes ([] : List (Located V)) fun _ => none where
  distinct := List.nodup_nil
  keys := by simp [keysOf]
  value := by simp

theorem Denotes.of_perm (h : Denotes es env) (hperm : ys.Perm es) : Denotes ys env where
  distinct := h.distinct.of_perm hperm
  keys k := (keysOf_perm hperm).mem_iff.trans (h.keys k)
  value e he := h.value e (hperm.mem_iff.1 he)

/-- An entry for a key that had none, and a value for it. -/
theorem Denotes.declared {n : ℕ} (h : Denotes es env) (hnew : k ∉ keysOf es) (v : V) :
    Denotes ((n, ⟨k, some v⟩) :: es) (Function.update env k (some v)) where
  distinct := List.nodup_cons.2 ⟨hnew, h.distinct⟩
  keys j := by
    by_cases hj : j = k
    · subst hj
      simp [keysOf]
    · rw [Function.update_of_ne hj, ← h.keys j]
      simp [keysOf, hj]
  value e he := by
    rcases List.mem_cons.1 he with rfl | he
    · exact (Function.update_self k (some v) env).symm
    · have hne : e.2.key ≠ k := fun heq => hnew (mem_keysOf.2 ⟨e, he, heq⟩)
      rw [Function.update_of_ne hne, h.value e he]

/-- A new value for a key that had one. -/
theorem Denotes.replaced {e : Located V} (h : Denotes (e :: es) env) (v : V) :
    Denotes ((e.1, { e.2 with value := some v }) :: es)
      (Function.update env e.2.key (some v)) where
  distinct := h.distinct
  keys j := by
    by_cases hj : j = e.2.key
    · subst hj
      simp [keysOf]
    · rw [Function.update_of_ne hj, ← h.keys j]
      simp [keysOf]
  value d hd := by
    rcases List.mem_cons.1 hd with rfl | hd
    · exact (Function.update_self e.2.key (some v) env).symm
    · have hne : d.2.key ≠ e.2.key := fun heq =>
        (List.nodup_cons.1 h.distinct).1 (mem_keysOf.2 ⟨d, hd, heq⟩)
      rw [Function.update_of_ne hne, h.value d (List.mem_cons_of_mem _ hd)]

/-- What a declaration and a store of a value leave of the entries of an environment. -/
theorem Denotes.stored {e : Located V} {rest : List (Located V)} (h : Denotes es env) (v : V)
    (hfs : fs.Perm es ∨ (∃ n, fs.Perm ((n, ⟨k, none⟩) :: es)) ∧
      ((∀ e ∈ es, e.2.key ≠ k) ∨ ∃ e ∈ es, e.2.key = k ∧ e.2.value = none))
    (hperm : fs.Perm (e :: rest)) (he : e.2.key = k)
    (hys : ys.Perm ((e.1, { e.2 with value := some v }) :: rest)) :
    Denotes ys (Function.update env k (some v)) := by
  obtain ⟨a, ⟨key, value⟩⟩ := e
  obtain rfl : key = k := he
  refine Denotes.of_perm ?_ hys
  rcases hfs with hfs | ⟨⟨n, hfs⟩, hnot⟩
  · exact (h.of_perm (hperm.symm.trans hfs)).replaced v
  · have hnew : key ∉ keysOf es := by
      intro hmem
      rcases hnot with hnew | ⟨d, hd, hdk, hdv⟩
      · obtain ⟨d, hd, hdk⟩ := mem_keysOf.1 hmem
        exact hnew d hd hdk
      · rw [h.value d hd, hdk] at hdv
        exact (h.keys _).1 hmem hdv
    -- the new entry is the only one of the key
    have hboth := hfs.symm.trans hperm
    obtain ⟨rfl, rfl⟩ : a = n ∧ value = none := by
      rcases List.mem_cons.1 (hboth.mem_iff.2 List.mem_cons_self) with heq | hmem
      · exact ⟨congrArg Prod.fst heq, congrArg (fun e => e.2.value) heq⟩
      · exact absurd (mem_keysOf.2 ⟨_, hmem, rfl⟩) hnew
    exact (h.declared hnew v).of_perm (((List.perm_cons _).1 hboth).symm.cons _)

/-- The map is the environment, wherever its cursor stands. -/
def Means (m : ListMap V) (env : CString → Option V) : Prop :=
  ∃ es, m.Represents es ∧ Denotes es env

theorem constructor_means : (constructor : ListMap V).Means fun _ => none :=
  ⟨[], constructor_represents, denotes_nil⟩

/-- The map with its cursor at another place. -/
def moved (m : ListMap V) (p : Option ℕ) : ListMap V := { m with list := { m.list with next := p } }

/-- A lookup finds what the environment has for the key, and moves the cursor. -/
theorem Means.get_moves (h : m.Means env) (k : CString) :
    ∃ p, m.get k = some (env k, m.moved p) ∧ (m.moved p).Means env := by
  obtain ⟨es, hm, hes⟩ := h
  by_cases hk : k ∈ keysOf es
  · obtain ⟨e, he, rfl⟩ := mem_keysOf.1 hk
    obtain ⟨xs, ys, rfl⟩ := List.append_of_mem he
    obtain ⟨p, hget, hp⟩ := hm.get_found hes.distinct.ne_before rfl
    rw [hes.value e he] at hget
    exact ⟨p, hget, _, hp, hes.of_perm (perm_past e)⟩
  · have hnone : env k = none := by
      by_contra hne
      exact hk ((hes.keys k).2 hne)
    obtain ⟨p, ys, hget, hys, hp⟩ := hm.get_absent fun d hd hdk => hk (mem_keysOf.2 ⟨d, hd, hdk⟩)
    rw [← hnone] at hget
    exact ⟨p, hget, ys, hp, hes.of_perm hys⟩

theorem Means.get (h : m.Means env) (k : CString) :
    ∃ m', m.get k = some (env k, m') ∧ m'.Means env := by
  obtain ⟨p, hget, hp⟩ := h.get_moves k
  exact ⟨_, hget, hp⟩

theorem Means.unique {env' : CString → Option V} (h : m.Means env) (h' : m.Means env') (k : CString) :
    env k = env' k := by
  obtain ⟨m₁, hget, -⟩ := h.get k
  obtain ⟨m₂, hget', -⟩ := h'.get k
  rw [hget] at hget'
  exact (Prod.mk.inj (Option.some.inj hget')).1

/-- A declaration and a store of a value bind the key to it. -/
theorem Means.bind (h : m.Means env) (k : CString) (v : V) :
    ∃ m₁ m₂, m.declare k = some m₁ ∧ m₁.put k (some v) = some (true, m₂) ∧
      m₂.Means (Function.update env k (some v)) := by
  obtain ⟨es, hm, hes⟩ := h
  obtain ⟨m₁, fs, hdeclare, hm₁, hfs⟩ := hm.declare_cases k
  have hdeclared : ∃ e ∈ fs, e.2.key = k := by
    rcases hfs with ⟨hperm, e, he, hek, -⟩ | ⟨⟨n, hperm⟩, -⟩
    · exact ⟨e, hperm.mem_iff.2 he, hek⟩
    · exact ⟨_, hperm.mem_iff.2 List.mem_cons_self, rfl⟩
  rcases hm₁.put_cases k (some v) with ⟨-, -, -, -, -, hnone⟩ |
    ⟨m₂, ys, e, rest, hput, hm₂, hperm, he, hys⟩
  · obtain ⟨e, he, hek⟩ := hdeclared
    exact absurd hek (hnone e he)
  · exact ⟨m₁, m₂, hdeclare, hput, ys, hm₂,
      hes.stored v (hfs.imp And.left id) hperm he hys⟩

end ListMap

/-! ### Scope stacks -/

namespace ScopeStack

open ListMap

variable {s : ScopeStack V} {levels : List ℕ} {es : ℕ → List (Located V)} {a : ℕ}

/-- In a level that is an environment a variable is bound to its value. -/
theorem binds_of_denotes {v : V} (h : Denotes (es a) env) (hk : env k = some v) :
    Binds es k a v := by
  refine ⟨mem_keysOf.1 ((h.keys k).2 (by simp [hk])), fun e he hek => ?_⟩
  rw [h.value e he, hek, hk]

/-- A declaration and a store bind the name in the innermost level. -/
theorem Holds.bind_denotes (h : s.Holds (a :: levels) es) (henv : Denotes (es a) env) (k : CString)
    (v : V) :
    ∃ s₁ s₂ es', s.declare k = some s₁ ∧ s₁.store k (some v) = some (true, s₂) ∧
      s₂.Holds (a :: levels) es' ∧ Denotes (es' a) (Function.update env k (some v)) ∧
      ∀ b ≠ a, es' b = es b := by
  obtain ⟨s₁, fs, hdeclare, hholds, -, hfs⟩ := h.declare k
  have hdeclared : ∃ e ∈ fs, e.2.key = k := by
    rcases hfs with ⟨rfl, e, he, hek, -⟩ | ⟨⟨n, rfl⟩, -⟩
    · exact ⟨e, he, hek⟩
    · exact ⟨(n, ⟨k, none⟩), List.mem_cons_self, rfl⟩
  obtain ⟨s₂, es', hstore, hholds', hstored⟩ := @Holds.store V s₁ _ a k [] levels hholds
    (by simp) (by rwa [Function.update_self]) (some v)
  obtain ⟨e, rest, hperm, hek, rfl⟩ := hstored
  rw [Function.update_self] at hperm
  refine ⟨s₁, s₂, _, hdeclare, hstore, hholds'.holds, ?_, fun b hb => ?_⟩
  · rw [Function.update_self]
    refine henv.stored v (hfs.imp ?_ fun hnew => ⟨?_, hnew.2⟩) hperm hek (List.Perm.refl _)
    · rintro ⟨rfl, -⟩
      exact List.Perm.refl _
    · obtain ⟨n, rfl⟩ := hnew.1
      exact ⟨n, List.Perm.refl _⟩
  · rw [Function.update_of_ne hb, Function.update_of_ne hb]

end ScopeStack

end InsenseCVM
