import Mathlib.Data.List.Perm.Subperm
import Mathlib.Logic.Relation
import DocState.Counters

/-!
# Links between places, their circles and walks

A link is a partial function on places, such as the parent of a counter or the counter that it is displayed
behind.

* `Link.Leads next a b`: the link of `a` goes to `b`.  `Link.Acyclic next`: no place leads back to itself.
* `Link.Within n next`: links start and end below `n`.
* `Link.Walk next i path`: `path` is the whole way from `i` along the link, up to a place without one; nothing
  bounds its length.
* `Acyclic.update_none`, `Acyclic.update_some_iff`: cutting a link closes no circle, and a new link closes one
  exactly if its start can be reached from its end.
* `walk_chain`: without circles, the bounded walk of `Counters.chain` is the whole walk.
* `mem_chain_iff`: it meets exactly the places that can be reached.
-/

open Relation

namespace DocState
namespace Link

/-! ## Definitions -/

/-- The link of `a` goes to `b`. -/
def Leads (next : Nat → Option Nat) (a b : Nat) : Prop := next a = some b

/-- No place leads back to itself. -/
def Acyclic (next : Nat → Option Nat) : Prop := ∀ a, ¬ TransGen (Leads next) a a

/-- All links start and end below `n`. -/
def Within (n : Nat) (next : Nat → Option Nat) : Prop := ∀ a b, next a = some b → a < n ∧ b < n

/-- The whole way from a place along a link. -/
inductive Walk (next : Nat → Option Nat) : Nat → List Nat → Prop
  | stop {i : Nat} (h : next i = none) : Walk next i [i]
  | go {i j : Nat} {path : List Nat} (h : next i = some j) (rest : Walk next j path) : Walk next i (i :: path)

variable {next : Nat → Option Nat} {n : Nat}

/-! ## Changing one link -/

theorem Within.update (h : Within n next) {i : Nat} {v : Option Nat} (hi : i < n)
    (hv : ∀ p, v = some p → p < n) : Within n (Function.update next i v) := by
  intro a b hab
  by_cases ha : a = i
  · subst ha
    rw [Function.update_self] at hab
    exact ⟨hi, hv b hab⟩
  · rw [Function.update_of_ne ha] at hab
    exact h a b hab

theorem Within.mono {m : Nat} (h : Within n next) (hnm : n ≤ m) : Within m next := by
  intro a b hab
  obtain ⟨ha, hb⟩ := h a b hab
  exact ⟨by omega, by omega⟩

theorem leads_of_leads_update_ne {i a b : Nat} {v : Option Nat} (h : Leads (Function.update next i v) a b)
    (ha : a ≠ i) : Leads next a b := by
  rwa [Leads, Function.update_of_ne ha] at h

theorem Acyclic.update_none (h : Acyclic next) (i : Nat) : Acyclic (Function.update next i none) := by
  intro a ha
  refine h a (TransGen.mono (fun x y hxy => ?_) _ _ ha)
  by_cases hx : x = i
  · subst hx
    simp [Leads] at hxy
  · exact leads_of_leads_update_ne hxy hx

/-- From a place that does not lead to `i`, a new link at `i` is never met. -/
theorem reaches_of_reaches_update {i above b : Nat} {v : Option Nat}
    (hi : ¬ ReflTransGen (Leads next) above i)
    (h : ReflTransGen (Leads (Function.update next i v)) above b) :
    ReflTransGen (Leads next) above b := by
  induction h with
  | refl => exact .refl
  | @tail x y _ hxy ih =>
    have hx : x ≠ i := by
      rintro rfl
      exact hi ih
    exact ih.tail (leads_of_leads_update_ne hxy hx)

/-- A way in the changed link is a way in the old one, or it passes the changed place. -/
theorem transGen_update_cases {i above a b : Nat}
    (h : TransGen (Leads (Function.update next i (some above))) a b) :
    TransGen (Leads next) a b ∨
      (ReflTransGen (Leads (Function.update next i (some above))) a i ∧
        ReflTransGen (Leads (Function.update next i (some above))) above b) := by
  have split : ∀ x y, Leads (Function.update next i (some above)) x y →
      Leads next x y ∨ (x = i ∧ y = above) := by
    intro x y hxy
    by_cases hx : x = i
    · subst hx
      right
      simpa [Leads, eq_comm] using hxy
    · exact .inl (leads_of_leads_update_ne hxy hx)
  induction h with
  | @single y hay =>
    rcases split a y hay with hold | ⟨rfl, rfl⟩
    · exact .inl (.single hold)
    · exact .inr ⟨.refl, .refl⟩
  | @tail x y hax hxy ih =>
    rcases split x y hxy with hold | ⟨rfl, rfl⟩
    · rcases ih with hax' | ⟨hai, habove⟩
      · exact .inl (hax'.tail hold)
      · exact .inr ⟨hai, habove.tail hxy⟩
    · exact .inr ⟨hax.to_reflTransGen, .refl⟩

theorem Acyclic.update_some {i above : Nat} (h : Acyclic next) (hi : ¬ ReflTransGen (Leads next) above i) :
    Acyclic (Function.update next i (some above)) := by
  intro a ha
  rcases transGen_update_cases ha with hold | ⟨hai, habove⟩
  · exact h a hold
  · -- the circle passes `i`, so `above` leads to `i` without the new link
    exact hi (reaches_of_reaches_update hi (habove.trans hai))

/-- A way to a place does not take the link of that place. -/
theorem reaches_update_of_reaches {i above : Nat} (v : Option Nat) (h : ReflTransGen (Leads next) above i) :
    ReflTransGen (Leads (Function.update next i v)) above i := by
  induction h using ReflTransGen.head_induction_on with
  | refl => exact .refl
  | @head a b hab _ ih =>
    by_cases ha : a = i
    · rw [ha]
    · refine ih.head ?_
      rwa [Leads, Function.update_of_ne ha]

/-- A new link closes a circle exactly if its start can be reached from its end. -/
theorem Acyclic.update_some_iff (h : Acyclic next) {i above : Nat} :
    Acyclic (Function.update next i (some above)) ↔ ¬ ReflTransGen (Leads next) above i := by
  refine ⟨fun hac hreach => ?_, h.update_some⟩
  have hnew : Leads (Function.update next i (some above)) i above := by rw [Leads, Function.update_self]
  exact hac i (.head' hnew (reaches_update_of_reaches _ hreach))

/-! ## Walks -/

theorem Walk.mem_iff {i : Nat} {path : List Nat} (w : Walk next i path) (a : Nat) :
    a ∈ path ↔ ReflTransGen (Leads next) i a := by
  induction w with
  | @stop i h =>
    rw [List.mem_singleton]
    constructor
    · rintro rfl
      exact .refl
    · intro hia
      rcases hia.cases_head with rfl | ⟨j, hj, -⟩
      · rfl
      · simp [Leads, h] at hj
  | @go i j path h rest ih =>
    rw [List.mem_cons, ih]
    constructor
    · rintro (rfl | hja)
      · exact .refl
      · exact hja.head h
    · intro hia
      rcases hia.cases_head with rfl | ⟨k, hk, hka⟩
      · exact .inl rfl
      · have hkj : k = j := by simpa [Leads, h, eq_comm] using hk
        exact .inr (hkj ▸ hka)

theorem Walk.length_pos {i : Nat} {path : List Nat} (w : Walk next i path) : 0 < path.length := by
  cases w <;> simp

theorem Walk.unique {i : Nat} {path path' : List Nat} (w : Walk next i path) (w' : Walk next i path') :
    path = path' := by
  induction w generalizing path' with
  | stop h =>
    cases w' with
    | stop _ => rfl
    | go h' _ => cases h.symm.trans h'
  | go h _ ih =>
    cases w' with
    | stop h' => cases h.symm.trans h'
    | go h' rest' =>
      obtain rfl := Option.some.inj (h.symm.trans h')
      rw [ih rest']

/-- A walk ends at a place without a link. -/
theorem Walk.exists_last {i : Nat} {path : List Nat} (w : Walk next i path) :
    ∃ last, path.getLast? = some last ∧ next last = none := by
  induction w with
  | @stop i h => exact ⟨i, rfl, h⟩
  | go _ _ ih =>
    obtain ⟨last, hlast, hnone⟩ := ih
    exact ⟨last, by rw [List.getLast?_cons, hlast, Option.getD_some], hnone⟩

/-- A long enough bound leaves a walk whole. -/
theorem Walk.chain_eq {i bound : Nat} {path : List Nat} (w : Walk next i path) (h : path.length ≤ bound) :
    Counters.chain next bound i = path := by
  induction w generalizing bound with
  | stop hnone =>
    obtain ⟨bound, rfl⟩ : ∃ m, bound = m + 1 := ⟨bound - 1, by simp at h; omega⟩
    simp [Counters.chain, hnone]
  | go hsome rest ih =>
    rw [List.length_cons] at h
    obtain ⟨bound, rfl⟩ : ∃ m, bound = m + 1 := ⟨bound - 1, by omega⟩
    simp [Counters.chain, hsome, ih (Nat.le_of_succ_le_succ h)]

/-! ## Bounded walks -/

theorem reaches_of_mem_chain {bound i a : Nat} (h : a ∈ Counters.chain next bound i) :
    ReflTransGen (Leads next) i a := by
  induction bound generalizing i with
  | zero => simp [Counters.chain] at h
  | succ bound ih =>
    rw [Counters.chain, List.mem_cons] at h
    rcases h with rfl | h
    · exact .refl
    · cases hi : next i with
      | none => simp [hi] at h
      | some j =>
        rw [hi] at h
        exact .head hi (ih h)

theorem nodup_chain (hac : Acyclic next) (bound i : Nat) : (Counters.chain next bound i).Nodup := by
  induction bound generalizing i with
  | zero => simp [Counters.chain]
  | succ bound ih =>
    rw [Counters.chain, List.nodup_cons]
    cases hi : next i with
    | none => simp
    | some j => exact ⟨fun hmem => hac i (.head' hi (reaches_of_mem_chain hmem)), ih j⟩

theorem Within.lt_of_reaches (hw : Within n next) {i a : Nat} (hi : i < n)
    (h : ReflTransGen (Leads next) i a) : a < n := by
  induction h with
  | refl => exact hi
  | tail _ hxy _ => exact (hw _ _ hxy).2

/-- There are not more places than `n`, so that no walk without repetition is longer. -/
theorem length_chain_le (hac : Acyclic next) (hw : Within n next) {i : Nat} (hi : i < n) (bound : Nat) :
    (Counters.chain next bound i).length ≤ n := by
  have hsub : Counters.chain next bound i ⊆ List.range n := fun a ha =>
    List.mem_range.2 (hw.lt_of_reaches hi (reaches_of_mem_chain ha))
  simpa using (List.subperm_of_subset (nodup_chain hac bound i) hsub).length_le

/-- A bounded walk is whole, or it has used up its bound. -/
theorem walk_or_length_eq (bound i : Nat) :
    Walk next i (Counters.chain next bound i) ∨ (Counters.chain next bound i).length = bound := by
  induction bound generalizing i with
  | zero => exact .inr rfl
  | succ bound ih =>
    rw [Counters.chain]
    cases hi : next i with
    | none => exact .inl (.stop hi)
    | some j =>
      rcases ih j with w | hlen
      · exact .inl (.go hi w)
      · exact .inr (by rw [List.length_cons, hlen])

/-- Without circles, the walk ends within as many places as there are. -/
theorem walk_chain (hac : Acyclic next) (hw : Within n next) {i : Nat} (hi : i < n) :
    Walk next i (Counters.chain next n i) := by
  have hlen := length_chain_le hac hw hi (n + 1)
  rcases @walk_or_length_eq next (n + 1) i with w | heq
  · rwa [w.chain_eq hlen]
  · omega

theorem mem_chain_iff (hac : Acyclic next) (hw : Within n next) {i : Nat} (hi : i < n) (a : Nat) :
    a ∈ Counters.chain next n i ↔ ReflTransGen (Leads next) i a :=
  (walk_chain hac hw hi).mem_iff a

end Link
end DocState
