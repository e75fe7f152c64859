import DocState.Proofs.Counters.WellFormed

/-!
# All recursion along links ends

The walks, the display and the step of the model stop after as many levels as there are counters.  Here they are
written once more without that bound, as relations, and it is shown that the bound never cuts anything off.

* `Rendered cs i t`: the display of a counter, through all its prefixes.
* `Stepped cs i cs'`: the step of a counter, through all counters below it.
* `rendered_renderAt`, `stepped_stepAt`: the bounded functions compute exactly these.
* `links_of_reachable`: what holds of the links of all counters that operations lead to.
-/

open Relation

namespace DocState
namespace Counters

/-! ## Display and step without bounds -/

/-- `t` is the text of the counter at a place: its value, behind the text of the counter in front of it. -/
inductive Rendered (cs : Counters) : Nat → Text → Prop
  | plain {i : Nat} {c : Counter} (hi : cs.arena[i]? = some c) (hd : c.display = .plain) :
    Rendered cs i c.value.text
  | behind {i j : Nat} {c : Counter} {t : Text} (hi : cs.arena[i]? = some c) (hd : c.display = .behind j)
    (before : Rendered cs j t) : Rendered cs i (t ++ '.' :: c.value.text)

/-- `cs'` is what stepping some children makes of `cs`.  One after the other they are set to minus one and stepped,
which adds one to a child and then steps its own children. -/
inductive ChildrenStepped : Counters → List Nat → Counters → Prop
  | nil {cs : Counters} : ChildrenStepped cs [] cs
  | cons {cs cs' cs'' : Counters} {child : Nat} {rest : List Nat}
    (first : ChildrenStepped ((cs.modify child fun c => { c with value := -1 }).modify child fun c =>
      { c with value := c.value.plus 1 }) (cs.childrenOf child) cs')
    (others : ChildrenStepped cs' rest cs'') : ChildrenStepped cs (child :: rest) cs''

/-- `cs'` is what the step of the counter at a place makes of `cs`: one is added to the counter, and then its
children are stepped. -/
def Stepped (cs : Counters) (i : Nat) (cs' : Counters) : Prop :=
  ChildrenStepped (cs.modify i fun c => { c with value := c.value.plus 1 }) (cs.childrenOf i) cs'

variable {cs : Counters}

/-! ## The bound is no restriction -/

theorem rendered_renderAt (h : WellFormed cs) {i : Nat} {path : List Nat} (w : Link.Walk cs.prefixOf i path)
    (hi : i < cs.size) {bound : Nat} (hbound : path.length ≤ bound) : Rendered cs i (cs.renderAt bound i) := by
  induction w generalizing bound with
  | @stop i hnone =>
    obtain ⟨bound, rfl⟩ : ∃ m, bound = m + 1 := ⟨bound - 1, by simp at hbound; omega⟩
    obtain ⟨c, hc⟩ := exists_getElem?_of_lt hi
    rw [prefixOf_of_getElem? hc] at hnone
    cases hd : c.display with
    | plain =>
      simp only [renderAt, hc, hd]
      exact .plain hc hd
    | behind j => simp [hd, Display.prefix?] at hnone
  | @go i j path hsome rest ih =>
    rw [List.length_cons] at hbound
    obtain ⟨bound, rfl⟩ : ∃ m, bound = m + 1 := ⟨bound - 1, by omega⟩
    obtain ⟨c, hc⟩ := exists_getElem?_of_lt hi
    have hj := (h.prefixes_within i j hsome).2
    rw [prefixOf_of_getElem? hc] at hsome
    cases hd : c.display with
    | plain => simp [hd, Display.prefix?] at hsome
    | behind k =>
      obtain rfl : k = j := by simpa [hd, Display.prefix?] using hsome
      simp only [renderAt, hc, hd]
      exact .behind hc hd (ih hj (Nat.le_of_succ_le_succ hbound))

/-- If `advance` steps every child as long as the links are those of `cs`, then it steps all of them in turn: what the
earlier ones have left differs from `cs` in values only. -/
theorem childrenStepped_foldl {advance : Nat → Counters → Counters} {places : List Nat}
    (hvalues : ∀ child now, ∃ f, advance child now = now.revalue f)
    (hstep : ∀ child ∈ places, ∀ now, WellFormed now → now.size = cs.size → now.parentOf = cs.parentOf →
      Stepped now child (advance child now))
    {now : Counters} (hwf : WellFormed now) (hsize : now.size = cs.size) (hparents : now.parentOf = cs.parentOf) :
    ChildrenStepped now places
      (places.foldl (fun cs child => advance child (cs.modify child fun c => { c with value := -1 })) now) := by
  induction places generalizing now with
  | nil => exact .nil
  | cons child rest ih =>
    have hset := @modify_value now child fun _ => -1
    have hfirst := hstep child List.mem_cons_self (now.modify child fun c => { c with value := -1 })
      (by rw [hset]; exact hwf.revalue _) (by rw [hset, size_revalue, hsize])
      (by rw [hset, parentOf_revalue, hparents])
    rw [Stepped, hset, childrenOf_revalue, ← hset] at hfirst
    rw [List.foldl_cons]
    refine .cons hfirst ?_
    obtain ⟨f, hf⟩ := hvalues child (now.modify child fun c => { c with value := -1 })
    rw [hf, hset]
    refine ih (fun j hj => hstep j (List.mem_cons_of_mem _ hj)) ((hwf.revalue _).revalue _) ?_ ?_
    · rw [size_revalue, size_revalue, hsize]
    · rw [parentOf_revalue, parentOf_revalue, hparents]

/-- The depth of a counter and the levels left to the step add up to more than there are counters, and no
counter is that deep. -/
theorem stepped_stepAt (h : WellFormed cs) {i : Nat} {path : List Nat} (w : Link.Walk cs.parentOf i path)
    (hi : i < cs.size) {depth : Nat} (hdepth : cs.size < path.length + depth) :
    Stepped cs i (stepAt depth i cs) := by
  induction depth generalizing cs i path with
  | zero =>
    have hle := Link.length_chain_le h.parents_acyclic h.parents_within hi path.length
    rw [w.chain_eq (Nat.le_refl _)] at hle
    omega
  | succ depth ih =>
    have hset := @modify_value cs i (·.plus 1)
    have hwf : WellFormed (cs.revalue (only i (·.plus 1))) := h.revalue _
    rw [stepAt, Stepped, hset]
    refine childrenStepped_foldl (exists_stepAt_eq_revalue depth) (fun child hchild now hnow hsize hparents => ?_) hwf
      (size_revalue _) (parentOf_revalue _)
    have hparent := (h.mem_childrenOf_iff child i).1 hchild
    have hlt := (h.parents_within child i hparent).1
    have hwalk : Link.Walk now.parentOf child (child :: path) := by
      rw [hparents]
      exact .go hparent w
    refine ih hnow hwalk (by rwa [hsize]) ?_
    rw [hsize, List.length_cons]
    omega

/-! ## Counters that can be reached -/

/-- Whatever operations have been tried on counters, accepted or refused: names lead to their own places and are
distinct; links lead to counters; parents and children are the two sides of one link, in one place only; neither
the parents nor the prefixes run in a circle; and walks, display and step come to an end. -/
theorem links_of_reachable (h : Reachable cs) :
    (∀ name i, cs.places.get? name = some i ↔ ∃ c, cs.arena[i]? = some c ∧ c.name = name) ∧
    cs.names.Nodup ∧
    (∀ (i : Nat) (c : Counter), cs.arena[i]? = some c →
      (∀ p, c.parent = some p → p < cs.size) ∧ (∀ j ∈ c.children, j < cs.size) ∧
        ∀ p, c.display = .behind p → p < cs.size) ∧
    (∀ i p, cs.parentOf i = some p ↔ i ∈ cs.childrenOf p) ∧
    (∀ i p, cs.parentOf i = some p →
      (cs.childrenOf p).count i = 1 ∧ ∀ q, q ≠ p → i ∉ cs.childrenOf q) ∧
    Link.Acyclic cs.parentOf ∧ Link.Acyclic cs.prefixOf ∧
    ∀ name i, cs.place name = .ok i →
      Link.Walk cs.parentOf i (cs.ancestry i) ∧ Link.Walk cs.prefixOf i (cs.prefixes i) ∧
      (∃ t, cs.render name = .ok t ∧ Rendered cs i t) ∧
      ∃ cs', (step name).run cs = .ok () cs' ∧ Stepped cs i cs' := by
  have hwf := h.wellFormed
  refine ⟨fun name i => ?_, hwf.names_nodup, fun i c hc => ⟨fun p hp => ?_, fun j hj => ?_, fun p hp => ?_⟩,
    fun i p => (hwf.mem_childrenOf_iff i p).symm, fun i p hp => ⟨?_, fun q hq hmem => ?_⟩, hwf.parents_acyclic,
    hwf.prefixes_acyclic, fun name i hi => ?_⟩
  · rw [hwf.place_iff, getElem?_names, Option.map_eq_some_iff]
  · exact (hwf.parents_within i p (by rwa [parentOf_of_getElem? hc])).2
  · rw [← childrenOf_of_getElem? hc, hwf.mem_childrenOf_iff] at hj
    exact (hwf.parents_within j i hj).1
  · exact (hwf.prefixes_within i p (by rw [prefixOf_of_getElem? hc, hp]; rfl)).2
  · exact List.count_eq_one_of_mem (hwf.nodup_childrenOf p) ((hwf.mem_childrenOf_iff i p).2 hp)
  · rw [hwf.mem_childrenOf_iff, hp, Option.some.injEq] at hmem
    exact hq hmem.symm
  · have hlt := hwf.lt_size_of_place hi
    have hparents := Link.walk_chain hwf.parents_acyclic hwf.parents_within hlt
    have hprefixes := Link.walk_chain hwf.prefixes_acyclic hwf.prefixes_within hlt
    refine ⟨hparents, hprefixes, ⟨cs.renderAt cs.size i, ?_, ?_⟩, stepAt cs.size i cs, ?_, ?_⟩
    · simp [render, hi]
    · exact rendered_renderAt hwf hprefixes hlt
        (Link.length_chain_le hwf.prefixes_acyclic hwf.prefixes_within hlt _)
    · rw [run_step, hi]
    · have hpos := hparents.length_pos
      exact stepped_stepAt hwf hparents hlt (by omega)

/-- Three counters of which the second is displayed behind the first and reset by the third. -/
def crossed : Counters :=
  empty.afterAll
    [.create ['A'] none 0, .create ['B'] none 0, .create ['D'] none 0, .attach ['B'] ['A'] true,
      .attach ['B'] ['D'] false, .attach ['A'] ['B'] true, .step ['D']]

theorem crossed_links : Reachable crossed ∧ crossed.names.Nodup ∧ crossed.place ['B'] = .ok 1 ∧
    Link.Walk crossed.parentOf 1 [1, 2] ∧ Link.Walk crossed.prefixOf 1 [1, 0] := by
  have hreach : Reachable crossed := ⟨_, rfl⟩
  have hplace : crossed.place ['B'] = .ok 1 := by rfl
  obtain ⟨-, hnames, -, -, -, -, -, hends⟩ := links_of_reachable hreach
  obtain ⟨hparents, hprefixes, -, -⟩ := hends ['B'] 1 hplace
  exact ⟨hreach, hnames, hplace, hparents, hprefixes⟩

end Counters
end DocState
