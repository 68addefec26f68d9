import InsenseCVM.Collections.ListMap

/-!
# List maps as finite maps

A run of `ListMap_declare`, `ListMap_put` and `ListMap_get` on a fresh map, against its own
history: which keys were declared, and which value was last put to each with success.

`ListMap_declare` takes a key whose value is still null for an undeclared one, and inserts a
second entry for it. From then on a put and the next lookup need not meet the same entry.
`finiteMap_run_iff` says that this is the only way a run ceases to be a finite map.
-/

namespace InsenseCVM

namespace ListMap

variable {V : Type}

/-- A call on a map; the value of a put is not null. -/
inductive Call (V : Type)
  | declare (key : CString)
  | put (key : CString) (value : V)
  | get (key : CString)

/-- The key a call is about. -/
def Call.key : Call V → CString
  | .declare k => k
  | .put k _ => k
  | .get k => k

/-- The map after a call. -/
def Call.apply (m : ListMap V) : Call V → Option (ListMap V)
  | .declare k => m.declare k
  | .put k v => (m.put k (some v)).map Prod.snd
  | .get k => (m.get k).map Prod.snd

/-- The map after a sequence of calls on a fresh one. -/
def runMap (calls : List (Call V)) : Option (ListMap V) := calls.foldlM Call.apply constructor

theorem runMap_concat (calls : List (Call V)) (call : Call V) :
    runMap (calls ++ [call]) = (runMap calls).bind call.apply := by
  simp [runMap, List.foldlM_append]

/-! ### Histories -/

/-- The call declares `k`. -/
def Call.declares (k : CString) : Call V → Bool
  | .declare k' => k' = k
  | _ => false

/-- Some call of the history declares `k`. -/
def declared (k : CString) (calls : List (Call V)) : Bool := calls.any (Call.declares k)

/-- The value last put to `k` after it was declared, in a history given newest call first. -/
def lastPutOf (k : CString) : List (Call V) → Option V
  | [] => none
  | .put k' v :: earlier => if k' = k ∧ declared k earlier then some v else lastPutOf k earlier
  | _ :: earlier => lastPutOf k earlier

/-- The value of the last successful put to `k`. -/
def lastPut (k : CString) (calls : List (Call V)) : Option V := lastPutOf k calls.reverse

variable {k k' : CString} {calls : List (Call V)}

@[simp] theorem declared_nil : declared k ([] : List (Call V)) = false := rfl

@[simp] theorem declared_reverse : declared k calls.reverse = declared k calls := by
  rw [declared, declared, List.any_reverse]

@[simp] theorem declared_declare :
    declared k (calls ++ [.declare k']) = (declared k calls || decide (k' = k)) := by
  simp [declared, Call.declares]

@[simp] theorem declared_put {v : V} :
    declared k (calls ++ [.put k' v]) = declared k calls := by
  simp [declared, Call.declares]

@[simp] theorem declared_get : declared k (calls ++ [.get k']) = declared k calls := by
  simp [declared, Call.declares]

@[simp] theorem lastPut_nil : lastPut k ([] : List (Call V)) = none := rfl

@[simp] theorem lastPut_declare : lastPut k (calls ++ [.declare k']) = lastPut k calls := by
  simp [lastPut, lastPutOf]

@[simp] theorem lastPut_put {v : V} :
    lastPut k (calls ++ [.put k' v]) =
      if k' = k ∧ declared k calls then some v else lastPut k calls := by
  simp [lastPut, lastPutOf]

@[simp] theorem lastPut_get : lastPut k (calls ++ [.get k']) = lastPut k calls := by
  simp [lastPut, lastPutOf]

/-- A call on another key leaves the last put to `k` as it was. -/
theorem lastPut_of_key_ne {call : Call V} (h : call.key ≠ k) :
    lastPut k (calls ++ [call]) = lastPut k calls := by
  cases call with
  | declare k' => exact lastPut_declare
  | put k' v => rw [lastPut_put, if_neg fun hk => h hk.1]
  | get k' => exact lastPut_get

theorem lastPut_of_not_declared (h : declared k calls = false) : lastPut k calls = none := by
  induction calls using List.reverseRecOn with
  | nil => rfl
  | append_singleton calls call ih =>
    cases call with
    | declare k' =>
      rw [declared_declare, Bool.or_eq_false_iff] at h
      rw [lastPut_declare, ih h.1]
    | put k' v =>
      rw [declared_put] at h
      rw [lastPut_put, if_neg fun hk => by simp [h] at hk, ih h]
    | get k' =>
      rw [declared_get] at h
      rw [lastPut_get, ih h]

/-! ### What a map owes its history -/

/-- The map answers every call as its history says: a put succeeds exactly on a declared key, a
lookup returns the last successful put, also after any one call more, and a call on another key
does not change what a lookup returns. -/
structure IsFiniteMap (m : ListMap V) (calls : List (Call V)) : Prop where
  put : ∀ k v, ∃ m', m.put k (some v) = some (declared k calls, m')
  get : ∀ k, ∃ m', m.get k = some (lastPut k calls, m')
  next : ∀ (call : Call V) k, ∃ m' m'', call.apply m = some m' ∧
    m'.get k = some (lastPut k (calls ++ [call]), m'')
  other : ∀ (call : Call V) k, call.key ≠ k → ∃ m' m'', call.apply m = some m' ∧
    m'.get k = some (lastPut k calls, m'')

/-- No call declares a key that is declared already and has no value yet. -/
def DeclaresOnce (calls : List (Call V)) : Prop :=
  ∀ pre k, pre ++ [.declare k] <+: calls → declared k pre → lastPut k pre ≠ none

/-- The entries are the history's: their keys are the declared ones, and each has the last value
put to its key. -/
structure Agrees (es : List (Located V)) (calls : List (Call V)) : Prop where
  keys : ∀ k, k ∈ keysOf es ↔ declared k calls
  value : ∀ e ∈ es, e.2.value = lastPut e.2.key calls

variable {es ys : List (Located V)} {m : ListMap V}

theorem Agrees.of_perm (h : Agrees es calls) (hperm : ys.Perm es) : Agrees ys calls where
  keys := fun k => (keysOf_perm hperm).mem_iff.trans (h.keys k)
  value := fun e he => h.value e (hperm.mem_iff.1 he)

theorem Represents.get_answer (h : m.Represents es) (ha : Agrees es calls) (k : CString) :
    ∃ m' ys, m.get k = some (lastPut k calls, m') ∧ ys.Perm es ∧ m'.Represents ys := by
  obtain ⟨value, m', ys, hget, hys, hm', ⟨rfl, hes⟩ | ⟨e, he, hek, rfl⟩⟩ := h.get_cases k
  · have hk : declared k calls = false := by
      rw [← Bool.not_eq_true, ← ha.keys k, mem_keysOf]
      rintro ⟨e, he, hek⟩
      exact hes e he hek
    exact ⟨m', ys, by rw [hget, lastPut_of_not_declared hk], hys, hm'⟩
  · exact ⟨m', ys, by rw [hget, ha.value e he, hek], hys, hm'⟩

/-! ### One call -/

/-- A declaration keeps the entries the history's, also when it is of a key already declared. -/
theorem Represents.declare (h : m.Represents es) (ha : Agrees es calls) (k : CString) :
    ∃ m' ys, m.declare k = some m' ∧ m'.Represents ys ∧ Agrees ys (calls ++ [.declare k]) ∧
      ((lastPut k calls ≠ none ∧ ys.Perm es) ∨
        (lastPut k calls = none ∧ ∃ a, ys.Perm ((a, ⟨k, none⟩) :: es))) := by
  obtain ⟨m', ys, hget, hys, hm'⟩ := h.get_answer ha k
  have ha' := ha.of_perm hys
  cases hl : lastPut k calls with
  | some v =>
    rw [hl] at hget
    have hdec : declared k calls = true := by
      by_contra hk
      rw [Bool.not_eq_true] at hk
      rw [lastPut_of_not_declared hk] at hl
      cases hl
    refine ⟨m', ys, by simp [ListMap.declare, hget], hm', ⟨fun k' => ?_, fun e he => ?_⟩,
      Or.inl ⟨by simp, hys⟩⟩
    · rw [ha'.keys k', declared_declare]
      by_cases hk : k = k'
      · subst hk
        simp [hdec]
      · simp [hk]
    · rw [ha'.value e he, lastPut_declare]
  | none =>
    rw [hl] at hget
    obtain ⟨zs, hzs, hins⟩ := hm'.insertEntry k
    have hperm : zs.Perm ((m'.fresh, ⟨k, none⟩) :: es) := hzs.trans (hys.cons _)
    refine ⟨_, zs, by simp [ListMap.declare, hget], hins, ⟨fun k' => ?_, fun e he => ?_⟩,
      Or.inr ⟨rfl, m'.fresh, hperm⟩⟩
    · rw [(keysOf_perm hperm).mem_iff, declared_declare, Bool.or_eq_true, ← ha.keys k',
        decide_eq_true_iff, or_comm, eq_comm]
      exact List.mem_cons
    · rw [lastPut_declare]
      rcases List.mem_cons.1 (hperm.mem_iff.1 he) with rfl | hmem
      · exact hl.symm
      · exact ha.value e hmem

/-- A put keeps the entries the history's when no two have one key. -/
theorem Represents.put (h : m.Represents es) (ha : Agrees es calls) (hk : KeysDistinct es)
    (k : CString) (v : V) :
    ∃ m' ys, m.put k (some v) = some (declared k calls, m') ∧ m'.Represents ys ∧
      Agrees ys (calls ++ [.put k v]) ∧ KeysDistinct ys := by
  by_cases hex : k ∈ keysOf es
  · have hdec := (ha.keys k).1 hex
    obtain ⟨xs, e, zs, rfl, hxs, rfl⟩ := exists_first_of_key (mem_keysOf.1 hex)
    obtain ⟨m', hput, hm'⟩ := h.put_found hxs rfl (some v)
    have hkeys : ∀ d ∈ xs ++ zs, d.2.key ≠ e.2.key := by
      rw [KeysDistinct, (keysOf_perm List.perm_middle).nodup_iff, keysOf, List.map_cons,
        List.nodup_cons] at hk
      exact fun d hd hde => hk.1 (List.mem_map.2 ⟨d, hd, hde⟩)
    have hmap : keysOf (zs ++ (xs ++ [(e.1, { e.2 with value := some v })])) =
        keysOf (zs ++ (xs ++ [e])) := by simp [keysOf]
    refine ⟨m', _, by rw [hput, hdec], hm', ⟨fun k' => ?_, fun d hd => ?_⟩, ?_⟩
    · rw [declared_put, ← ha.keys k', hmap, (keysOf_perm (perm_past e)).mem_iff]
    · rw [lastPut_put]
      rw [← List.append_assoc, List.mem_append, List.mem_singleton] at hd
      rcases hd with hd | rfl
      · have hd' : d ∈ xs ++ zs := List.perm_append_comm.mem_iff.1 hd
        rw [if_neg fun hde => hkeys d hd' hde.1.symm]
        refine ha.value d ?_
        rw [List.perm_middle.mem_iff]
        exact List.mem_cons_of_mem _ hd'
      · rw [if_pos ⟨rfl, hdec⟩]
    · rw [KeysDistinct, hmap]
      exact hk.of_perm (perm_past e)
  · have hes : ∀ d ∈ es, d.2.key ≠ k := fun d hd hdk => hex (mem_keysOf.2 ⟨d, hd, hdk⟩)
    have hdec : declared k calls = false := by
      rw [← Bool.not_eq_true, ← ha.keys k]
      exact hex
    obtain ⟨m', ys, hput, hys, hm'⟩ := h.put_absent hes (some v)
    have ha' := ha.of_perm hys
    refine ⟨m', ys, by rw [hput, hdec], hm', ⟨fun k' => ?_, fun d hd => ?_⟩, hk.of_perm hys⟩
    · rw [ha'.keys k', declared_put]
    · rw [ha'.value d hd, lastPut_put, if_neg]
      rintro ⟨rfl, htrue⟩
      exact hes d (hys.mem_iff.1 hd) rfl

theorem Represents.get (h : m.Represents es) (ha : Agrees es calls) (k : CString) :
    ∃ m' ys, m.get k = some (lastPut k calls, m') ∧ ys.Perm es ∧ m'.Represents ys ∧
      Agrees ys (calls ++ [.get k]) := by
  obtain ⟨m', ys, hget, hys, hm'⟩ := h.get_answer ha k
  have ha' := ha.of_perm hys
  exact ⟨m', ys, hget, hys, hm', fun k' => by rw [ha'.keys k', declared_get],
    fun e he => by rw [ha'.value e he, lastPut_get]⟩

/-- Any one call keeps the entries the history's when no two had one key. -/
theorem Represents.apply (h : m.Represents es) (ha : Agrees es calls) (hk : KeysDistinct es)
    (call : Call V) :
    ∃ m' ys, call.apply m = some m' ∧ m'.Represents ys ∧ Agrees ys (calls ++ [call]) ∧
      ((∀ k, call = .declare k → declared k calls → lastPut k calls ≠ none) →
        KeysDistinct ys) := by
  cases call with
  | declare k =>
    obtain ⟨m', ys, hdec, hm', ha', hcase⟩ := h.declare ha k
    refine ⟨m', ys, hdec, hm', ha', fun honce => ?_⟩
    rcases hcase with ⟨-, hys⟩ | ⟨hnone, a, hys⟩
    · exact hk.of_perm hys
    · have hnew : k ∉ keysOf es := fun hmem => honce k rfl ((ha.keys k).1 hmem) hnone
      have hdist : KeysDistinct ((a, ⟨k, none⟩) :: es) := List.nodup_cons.2 ⟨hnew, hk⟩
      exact hdist.of_perm hys
  | put k v =>
    obtain ⟨m', ys, hput, hm', ha', hk'⟩ := h.put ha hk k v
    exact ⟨m', ys, by simp [Call.apply, hput], hm', ha', fun _ => hk'⟩
  | get k =>
    obtain ⟨m', ys, hget, hys, hm', ha'⟩ := h.get ha k
    exact ⟨m', ys, by simp [Call.apply, hget], hm', ha', fun _ => hk.of_perm hys⟩

/-! ### States -/

/-- Entries with distinct keys make a finite map, wherever the cursor stands. -/
theorem Represents.isFiniteMap (h : m.Represents es) (ha : Agrees es calls)
    (hk : KeysDistinct es) : IsFiniteMap m calls where
  put := fun k v => by
    obtain ⟨m', ys, hput, -⟩ := h.put ha hk k v
    exact ⟨m', hput⟩
  get := fun k => by
    obtain ⟨m', ys, hget, -⟩ := h.get_answer ha k
    exact ⟨m', hget⟩
  next := fun call k => by
    obtain ⟨m', ys, happ, hm', ha', -⟩ := h.apply ha hk call
    obtain ⟨m'', zs, hget, -⟩ := hm'.get_answer ha' k
    exact ⟨m', m'', happ, hget⟩
  other := fun call k hne => by
    obtain ⟨m', ys, happ, hm', ha', -⟩ := h.apply ha hk call
    obtain ⟨m'', zs, hget, -⟩ := hm'.get_answer ha' k
    exact ⟨m', m'', happ, by rw [hget, lastPut_of_key_ne hne]⟩

/-- Two entries of one key without a value: a put fills the one, the next lookup meets the
other. -/
theorem Represents.not_isFiniteMap (h : m.Represents es) (ha : Agrees es calls) (v : V)
    (htwo : 2 ≤ (keysOf es).count k) (hnone : lastPut k calls = none) :
    ¬ IsFiniteMap m calls := by
  intro hmap
  have hmem : k ∈ keysOf es := List.count_pos_iff.1 (by omega)
  obtain ⟨xs, e, ys, rfl, hxs, he⟩ := exists_first_of_key (mem_keysOf.1 hmem)
  obtain ⟨m', hput, hm'⟩ := h.put_found hxs he (some v)
  have hys : k ∈ keysOf ys := by
    have hxs0 : (keysOf xs).count k = 0 := by
      rw [List.count_eq_zero]
      intro hkx
      obtain ⟨d, hd, hdk⟩ := mem_keysOf.1 hkx
      exact hxs d hd hdk
    rw [keysOf, List.map_append, List.map_cons, List.count_append, List.count_cons] at htwo
    change 2 ≤ (keysOf xs).count k + ((keysOf ys).count k + _) at htwo
    refine List.count_pos_iff.1 ?_
    split_ifs at htwo <;> omega
  obtain ⟨us, o, ws, rfl, hus, ho⟩ := exists_first_of_key (mem_keysOf.1 hys)
  rw [List.append_assoc, List.cons_append] at hm'
  obtain ⟨p, hget, -⟩ := hm'.get_found hus ho
  obtain ⟨n, n', happ, hnext⟩ := hmap.next (.put k v) k
  obtain rfl : m' = n := by simpa [Call.apply, hput] using happ
  rw [hget, ha.value o (by simp), ho, hnone, lastPut_put, if_pos ⟨rfl, (ha.keys k).1 hmem⟩] at hnext
  cases hnext

/-! ### Runs -/

theorem DeclaresOnce.of_prefix {pre : List (Call V)} (h : DeclaresOnce calls)
    (hpre : pre <+: calls) : DeclaresOnce pre :=
  fun pre' k hpre' => h pre' k (hpre'.trans hpre)

/-- A run that declares no key twice before its first put keeps the keys distinct. -/
theorem DeclaresOnce.represents (h : DeclaresOnce calls) :
    ∃ m es, runMap calls = some m ∧ m.Represents es ∧ Agrees es calls ∧ KeysDistinct es := by
  induction calls using List.reverseRecOn with
  | nil =>
    exact ⟨constructor, [], rfl, constructor_represents,
      ⟨fun k => by simp [keysOf], fun e he => by cases he⟩, List.nodup_nil⟩
  | append_singleton calls call ih =>
    obtain ⟨m, es, hm, hrep, ha, hk⟩ := ih (h.of_prefix (List.prefix_append _ _))
    obtain ⟨m', ys, happ, hrep', ha', hk'⟩ := hrep.apply ha hk call
    refine ⟨m', ys, by rw [runMap_concat, hm, Option.bind_some, happ], hrep', ha', hk' ?_⟩
    rintro k rfl hdec
    exact h calls k List.prefix_rfl hdec

/-- **A run's states are finite maps exactly when no call of the run declares a key that is
declared already and has no value yet.** -/
theorem finiteMap_run_iff [Inhabited V] (calls : List (Call V)) :
    (∀ pre, pre <+: calls → ∃ m, runMap pre = some m ∧ IsFiniteMap m pre) ↔
      DeclaresOnce calls := by
  constructor
  · intro h
    have honce : ∀ pre, pre <+: calls → DeclaresOnce pre := by
      intro pre
      induction pre using List.reverseRecOn with
      | nil => exact fun _ pre k hpre => by simp at hpre
      | append_singleton pre call ih =>
        intro hpre pre' k hpre' hdec hnone
        have hall := ih ((List.prefix_append _ _).trans hpre)
        rcases List.prefix_concat_iff.1 hpre' with heq | hlt
        · obtain ⟨rfl, hcall⟩ := List.append_inj' heq rfl
          obtain rfl : Call.declare k = call := by simpa using hcall
          obtain ⟨m, es, hm, hrep, ha, hk⟩ := hall.represents
          obtain ⟨m', ys, happ, hrep', ha', hcase⟩ := hrep.declare ha k
          obtain ⟨n, hn, hmap⟩ := h _ hpre
          rw [runMap_concat, hm, Option.bind_some] at hn
          obtain rfl : m' = n := Option.some.inj (happ.symm.trans hn)
          obtain ⟨-, a, hys⟩ := hcase.resolve_left fun hl => hl.1 hnone
          have htwo : 2 ≤ (keysOf ys).count k := by
            rw [(keysOf_perm hys).count_eq, keysOf, List.map_cons, List.count_cons_self]
            have hpos : 0 < (keysOf es).count k := List.count_pos_iff.2 ((ha.keys k).2 hdec)
            exact Nat.succ_le_succ hpos
          exact hrep'.not_isFiniteMap ha' default htwo (by rw [lastPut_declare, hnone]) hmap
        · exact hall pre' k hlt hdec hnone
    exact honce calls List.prefix_rfl
  · intro h pre hpre
    obtain ⟨m, es, hm, hrep, ha, hk⟩ := (h.of_prefix hpre).represents
    exact ⟨m, hm, hrep.isFiniteMap ha hk⟩

/-- A key declared twice before its first put: the lookup after the put returns null. -/
theorem declare_twice_not_finiteMap :
    ¬ ∃ m, runMap [Call.declare [107], .declare [107], .put [107] 5] = some m ∧
      IsFiniteMap m [Call.declare [107], .declare [107], .put [107] 5] := by
  rintro ⟨m, hm, hmap⟩
  have hget : (runMap [Call.declare [107], .declare [107], .put [107] 5]).bind
      (fun m => (m.get [107]).map Prod.fst) = some none := by decide
  obtain ⟨m', hm'⟩ := hmap.get [107]
  rw [hm, Option.bind_some, hm'] at hget
  have hlast : lastPut [107] [Call.declare [107], .declare [107], .put [107] 5] = some 5 := by
    decide
  rw [hlast] at hget
  cases hget

end ListMap

end InsenseCVM
