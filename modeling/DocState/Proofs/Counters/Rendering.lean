import DocState.Proofs.Counters.Recursion
import DocState.Proofs.Counters.Rewiring
import DocState.Proofs.Decimals.Reading

/-!
# The text of a counter

A counter is displayed behind another one, which may be displayed behind a third one, and so on.  The text consists of
the values on this way, with dots between them, and can be taken apart again.

* `Counters.Renders cs name path`: the text of a counter consists of the values along a path, and shows which they are.
* `Rendered.exists_values`: the display without bounds, value by value.  `WellFormed.renders`: the text of a counter.
* `Operation.keepsDisplays`: changes of values, and moves that leave the display alone.  `prefixOf_afterAll`: they leave
  all paths alone.
* `render_of_reachable`: the text of a counter, now and after such changes.
-/

open Relation

namespace DocState

/-! ## Values with dots between them -/

theorem Decimal.dot_not_mem_of_denotes {t : Text} {i : Int} (h : Denotes t i) : '.' ∉ t := by
  have hrun : ∀ {digits : Text}, isRun digits = true → '.' ∉ digits :=
    fun hdigits hdot => absurd (isDigit_of_isRun hdigits hdot) (by decide)
  cases h with
  | plain hdigits => exact hrun hdigits
  | plus hdigits => simpa using hrun hdigits
  | minus hdigits => simpa using hrun hdigits

/-- The decimal texts of some values with single dots between them. -/
def Number.joined (values : List Number) : Text := ['.'].intercalate (values.map Number.text)

namespace Number

theorem joined_append_singleton {values : List Number} (hne : values ≠ []) (v : Number) :
    joined (values ++ [v]) = joined values ++ '.' :: v.text := by
  induction values with
  | nil => exact absurd rfl hne
  | cons first rest ih =>
    cases rest with
    | nil => simp [joined]
    | cons second rest =>
      have hrest := ih (List.cons_ne_nil second rest)
      simp only [joined, List.cons_append, List.map_cons, List.intercalate_cons_cons, List.append_assoc] at hrest ⊢
      rw [hrest]

/-- The values can be read off the text between the dots. -/
theorem map_ofText?_splitOn_joined {values : List Number} (hne : values ≠ []) :
    ((joined values).splitOn '.').map ofText? = values.map some := by
  have hdots : ∀ part ∈ values.map text, '.' ∉ part := by
    intro part hpart
    obtain ⟨v, -, rfl⟩ := List.mem_map.1 hpart
    exact Decimal.dot_not_mem_of_denotes (Decimal.denotes_ofInt v.toInt)
  rw [joined, List.splitOn_intercalate '.' hdots (by simpa using hne), List.map_map]
  exact List.map_congr_left fun v _ => ofText?_of_denotes (Decimal.denotes_ofInt v.toInt)

end Number

namespace Counters

/-- The text of a counter consists of the values along a path, of which the last one comes first, and these values can be
read off it. -/
def Renders (cs : Counters) (name : Text) (path : List Nat) : Prop :=
  ∃ values : List Number, path.map cs.valueAt = values.map some ∧
    cs.render name = .ok (Number.joined values.reverse) ∧
    ((Number.joined values.reverse).splitOn '.').map Number.ofText? = values.reverse.map some

/-- The operations that leave all displays alone: changes of values, and moves without display. -/
def Operation.keepsDisplays : Operation → Bool
  | attach _ _ display => !display
  | op => op.changesValues

variable {cs : Counters} {name : Text} {i : Nat}

/-! ## The path of a text -/

theorem ne_nil_of_walk {path : List Nat} (w : Link.Walk cs.prefixOf i path) {values : List Number}
    (hvalues : path.map cs.valueAt = values.map some) : values ≠ [] := by
  rintro rfl
  have hpos := w.length_pos
  rw [List.map_eq_nil_iff.1 hvalues] at hpos
  exact Nat.lt_irrefl 0 hpos

theorem Rendered.exists_values {t : Text} (r : Rendered cs i t) {path : List Nat} (w : Link.Walk cs.prefixOf i path) :
    ∃ values : List Number, path.map cs.valueAt = values.map some ∧ t = Number.joined values.reverse := by
  induction r generalizing path with
  | @plain i c hi hd =>
    cases w with
    | stop hnone => exact ⟨[c.value], by simp [valueAt, hi], by simp [Number.joined]⟩
    | go hsome rest => simp [prefixOf_of_getElem? hi, hd, Display.prefix?] at hsome
  | @behind i j c t hi hd before ih =>
    cases w with
    | stop hnone => simp [prefixOf_of_getElem? hi, hd, Display.prefix?] at hnone
    | @go _ k path hsome rest =>
      obtain rfl : j = k := by simpa [prefixOf_of_getElem? hi, hd, Display.prefix?] using hsome
      obtain ⟨values, hvalues, rfl⟩ := ih rest
      have hne := ne_nil_of_walk rest hvalues
      refine ⟨c.value :: values, by simp [valueAt, hi, ← hvalues], ?_⟩
      rw [List.reverse_cons, Number.joined_append_singleton (by simpa using hne)]

/-- The text of a counter is made of the values on its path. -/
theorem WellFormed.renders (h : WellFormed cs) (hi : cs.place name = .ok i) {path : List Nat}
    (w : Link.Walk cs.prefixOf i path) : cs.Renders name path := by
  have hlt := h.lt_size_of_place hi
  have hle := Link.length_chain_le h.prefixes_acyclic h.prefixes_within hlt path.length
  rw [w.chain_eq (Nat.le_refl _)] at hle
  obtain ⟨values, hvalues, htext⟩ := (rendered_renderAt h w hlt hle).exists_values w
  have hne := ne_nil_of_walk w hvalues
  refine ⟨values, hvalues, ?_, Number.map_ofText?_splitOn_joined (by simpa using hne)⟩
  rw [render, hi]
  exact congrArg Except.ok htext

/-! ## What leaves the path alone -/

theorem prefixOf_rewire_self (i : Nat) (parent : Option Nat) :
    (cs.rewire i parent fun shown => shown).prefixOf = cs.prefixOf := by
  funext j
  simp only [prefixOf, getElem?_rewire, ite_self]
  cases cs.arena[j]? <;> rfl

theorem prefixOf_after {op : Operation} (hop : op.keepsDisplays = true) (cs : Counters) :
    (op.after cs).prefixOf = cs.prefixOf ∧ (op.after cs).places = cs.places := by
  by_cases hvalues : op.changesValues = true
  · obtain ⟨f, hf⟩ := exists_after_eq_revalue hvalues cs
    rw [hf]
    exact ⟨prefixOf_revalue f, rfl⟩
  · cases op with
    | attach name above display =>
      obtain rfl : display = false := by simpa [Operation.keepsDisplays] using hop
      rcases attach_cases name above false cs with ⟨e, hrefused⟩ | ⟨j, parent, -, -, -, hdone⟩
      · exact ⟨congrArg prefixOf (Update.after_of_run_error hrefused),
          congrArg places (Update.after_of_run_error hrefused)⟩
      · have hafter := Update.after_of_run_ok hdone
        exact ⟨(congrArg prefixOf hafter).trans (prefixOf_rewire_self j _),
          (congrArg places hafter).trans (places_rewire j _ _)⟩
    | _ => exact absurd hop hvalues

theorem prefixOf_afterAll {ops : List Operation} (hops : ∀ op ∈ ops, op.keepsDisplays = true) (cs : Counters) :
    (cs.afterAll ops).prefixOf = cs.prefixOf ∧ (cs.afterAll ops).places = cs.places := by
  induction ops generalizing cs with
  | nil => exact ⟨rfl, rfl⟩
  | cons op ops ih =>
    obtain ⟨hop, hothers⟩ := List.forall_mem_cons.1 hops
    obtain ⟨hfirst, hplaces⟩ := prefixOf_after hop cs
    obtain ⟨hlater, hall⟩ := ih hothers (op.after cs)
    exact ⟨hlater.trans hfirst, hall.trans hplaces⟩

/-- Whatever operations have been tried on counters, accepted or refused: the counters that a counter is displayed behind,
one behind the other, are a path without repetition up to a counter that is displayed alone.  The text of the counter is
made of the values on this path, the last one first, with dots between them, and they can be read off it.  Changes of
values and moves without display change neither the path nor this. -/
theorem render_of_reachable (h : Reachable cs) (hi : cs.place name = .ok i) :
    ∃ path, Link.Walk cs.prefixOf i path ∧ path.Nodup ∧
      (∃ last c, path.getLast? = some last ∧ cs.arena[last]? = some c ∧ c.display = .plain) ∧
      cs.Renders name path ∧
      ∀ ops : List Operation, (∀ op ∈ ops, op.keepsDisplays = true) →
        Link.Walk (cs.afterAll ops).prefixOf i path ∧ (cs.afterAll ops).Renders name path := by
  have hwf := h.wellFormed
  have hlt := hwf.lt_size_of_place hi
  have w : Link.Walk cs.prefixOf i (cs.prefixes i) := Link.walk_chain hwf.prefixes_acyclic hwf.prefixes_within hlt
  refine ⟨cs.prefixes i, w, Link.nodup_chain hwf.prefixes_acyclic _ i, ?_, hwf.renders hi w, fun ops hops => ?_⟩
  · obtain ⟨last, hlast, hnone⟩ := w.exists_last
    have hreach := (w.mem_iff last).1 (List.mem_of_getLast? hlast)
    obtain ⟨c, hc⟩ := exists_getElem?_of_lt (hwf.prefixes_within.lt_of_reaches hlt hreach)
    refine ⟨last, c, hlast, hc, ?_⟩
    rw [prefixOf_of_getElem? hc] at hnone
    cases hd : c.display with
    | plain => rfl
    | behind j => simp [hd, Display.prefix?] at hnone
  · obtain ⟨hsame, hplaces⟩ := prefixOf_afterAll hops cs
    have hplace : (cs.afterAll ops).place name = .ok i := by rw [place, hplaces, ← place, hi]
    have hwalk : Link.Walk (cs.afterAll ops).prefixOf i (cs.prefixes i) := by rwa [hsame]
    exact ⟨hwalk, (hwf.afterAll ops).renders hplace hwalk⟩

/-- `C` is displayed behind `B`, and `B` behind `A`, which does not reset it any more. -/
def layered : Counters :=
  empty.afterAll
    [.create ['A'] none 1, .create ['B'] none 2, .create ['D'] none 9, .create ['C'] none (-5),
      .attach ['B'] ['A'] true, .attach ['C'] ['B'] true, .attach ['B'] ['D'] false]

/-- `C` gets another parent, `B` another value, and `A` takes a step. -/
theorem render_layered :
    let ops := [.attach ['C'] ['D'] false, .set ['B'] 7, .step ['A']]
    Reachable layered ∧ layered.place ['C'] = .ok 3 ∧ (∀ op ∈ ops, Operation.keepsDisplays op = true) ∧
      Link.Walk layered.prefixOf 3 [3, 1, 0] ∧ layered.render ['C'] = .ok "1.2.-5".toList ∧
      Link.Walk (layered.afterAll ops).prefixOf 3 [3, 1, 0] ∧
      (layered.afterAll ops).render ['C'] = .ok "2.7.-5".toList := by
  intro ops
  have hreach : Reachable layered := ⟨_, rfl⟩
  have hplace : layered.place ['C'] = .ok 3 := by rfl
  have hops : ∀ op ∈ ops, Operation.keepsDisplays op = true := by decide
  have hpath : Link.Walk layered.prefixOf 3 [3, 1, 0] := .go (j := 1) rfl (.go (j := 0) rfl (.stop rfl))
  have htext : ∀ {cs : Counters} (values : List Number), cs.Renders ['C'] [3, 1, 0] →
      [3, 1, 0].map cs.valueAt = values.map some → cs.render ['C'] = .ok (Number.joined values.reverse) := by
    rintro cs values ⟨found, hfound, hrender, -⟩ hvalues
    obtain rfl := List.map_injective_iff.2 (Option.some_injective _) (hfound.symm.trans hvalues)
    exact hrender
  obtain ⟨path, w, -, -, hnow, hlater⟩ := render_of_reachable hreach hplace
  obtain rfl := w.unique hpath
  obtain ⟨wlater, hthen⟩ := hlater ops hops
  refine ⟨hreach, hplace, hops, w, ?_, wlater, ?_⟩
  · exact (htext [-5, 2, 1] hnow (by rfl)).trans (by rfl)
  · exact (htext [-5, 7, 2] hthen (by rfl)).trans (by rfl)

end Counters
end DocState
