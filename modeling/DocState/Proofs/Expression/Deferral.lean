import Mathlib.Data.List.Count
import Mathlib.Data.List.Sort
import DocState.Expression.Postfix

/-!
# Postfix order defers operations

An operation that is read waits on the stack until its operands are complete, and numbers never wait.  So the items in
postfix order are the tokens without the parentheses, and each operation has come behind more tokens at most.  This
holds of any tokens that are put in order, whether they form an expression or not.

* `Item.token`, `Pending.token`: items, and what waits on the stack, as tokens.
* `Deferral order marked items`: the items are the marked tokens in another order, and no operation has come in front of
  a number that it stood behind.  `Deferral.number`, `Deferral.operator`, `Deferral.group`: what each token does to it.
* `exists_deferral`: tokens are put in order by a deferral.  `arrange_perm`: as items, they are in some order.
* `Postfix.deferral_of_ofText`: the items of any text.
-/

namespace DocState
namespace Expression

/-! ## Items and pending operations as tokens -/

/-- The token that an item stands for. -/
def Item.token : Item → Token
  | .number x => .number x
  | .operator op => .operator op

/-- The token that waits on the stack. -/
def Pending.token : Pending → Token
  | .operator op => .operator op
  | .opening => .opening

/-- Whether a token only groups others. -/
def Token.isParenthesis : Token → Bool
  | .opening | .closing => true
  | _ => false

/-- Whether a token is a number. -/
def Token.isNumber : Token → Bool
  | .number _ => true
  | _ => false

namespace Pending

/-- What leaves the stack and what stays is the stack. -/
theorem map_token_takeBefore (op : Operator) (stack : List Pending) :
    stack.map token = (takeBefore op stack).1.map Item.token ++ (takeBefore op stack).2.map token := by
  induction stack with
  | nil => rfl
  | cons top below ih =>
    cases top with
    | opening => rfl
    | operator o =>
      by_cases h : o.precedes op = true
      · rw [takeBefore, if_pos h, List.map_cons, ih]
        rfl
      · rw [takeBefore, if_neg h]
        rfl

theorem map_token_takeGroup? {stack kept : List Pending} {out : List Item}
    (h : takeGroup? stack = some (out, kept)) :
    stack.map token = out.map Item.token ++ .opening :: kept.map token := by
  induction stack generalizing out with
  | nil => cases h
  | cons top below ih =>
    cases top with
    | opening =>
      cases h
      rfl
    | operator o =>
      obtain ⟨⟨out, kept⟩, hbelow, ⟨⟩⟩ := Option.map_eq_some_iff.1 h
      rw [List.map_cons, ih hbelow]
      rfl

theorem map_token_takeAll? {stack : List Pending} {items : List Item} (h : takeAll? stack = some items) :
    stack.map token = items.map Item.token := by
  induction stack generalizing items with
  | nil =>
    cases h
    rfl
  | cons top below ih =>
    cases top with
    | opening => cases h
    | operator o =>
      obtain ⟨items, hbelow, rfl⟩ := Option.map_eq_some_iff.1 h
      rw [List.map_cons, ih hbelow]
      rfl

end Pending

theorem filter_map_token (items : List Item) :
    (items.map Item.token).filter (fun t => !t.isParenthesis) = items.map Item.token := by
  refine List.filter_eq_self.2 fun t ht => ?_
  obtain ⟨item, -, rfl⟩ := List.mem_map.1 ht
  cases item <;> rfl

/-! ## Deferrals -/

/-- The items are the marked tokens in another order.  The marks are the places at which the tokens stood. -/
structure Deferral (order marked : List (Token × Nat)) (items : List Item) : Prop where
  tokens : order.map Prod.fst = items.map Item.token
  /-- Nothing but the parentheses is lost, and nothing is added. -/
  perm : order.Perm (marked.filter fun t => !t.1.isParenthesis)
  /-- What stands in front of a number stood in front of it before. -/
  numbers : order.Pairwise fun a b => b.1.isNumber = true → a.2 < b.2

namespace Deferral

variable {order marked marked' waiting released kept rest : List (Token × Nat)} {items out : List Item}

theorem of_perm (h : Deferral order marked items) (hperm : marked.Perm marked') : Deferral order marked' items where
  tokens := h.tokens
  perm := h.perm.trans (hperm.filter _)
  numbers := h.numbers

theorem parenthesis (h : Deferral order marked items) {t : Token × Nat} (ht : t.1.isParenthesis = true) :
    Deferral order (t :: marked) items where
  tokens := h.tokens
  perm := by
    rw [List.filter_cons_of_neg (by simp [ht])]
    exact h.perm
  numbers := h.numbers

/-- Items that come in front of all others. -/
theorem append (h : Deferral order marked items) (hout : released.map Prod.fst = out.map Item.token)
    (hfirst : released.Pairwise fun a b => b.1.isNumber = true → a.2 < b.2)
    (hbefore : ∀ a ∈ released, ∀ b ∈ marked, b.1.isNumber = true → a.2 < b.2) :
    Deferral (released ++ order) (released ++ marked) (out ++ items) where
  tokens := by rw [List.map_append, List.map_append, hout, h.tokens]
  perm := by
    have hkept : released.filter (fun t => !t.1.isParenthesis) = released := by
      refine List.filter_eq_self.2 fun t ht => ?_
      have hitem : t.1 ∈ out.map Item.token := hout ▸ List.mem_map_of_mem ht
      rw [← filter_map_token] at hitem
      exact (List.mem_filter.1 hitem).2
    rw [List.filter_append, hkept]
    exact h.perm.append_left released
  numbers := by
    refine List.pairwise_append.2 ⟨hfirst, h.numbers, fun a ha b hb hnumber => ?_⟩
    exact hbefore a ha b (List.mem_of_mem_filter (h.perm.mem_iff.1 hb)) hnumber

/-- What waits on the stack is no number, and is older than what has not been read. -/
theorem release (h : Deferral order (kept ++ rest) items) (hout : released.map Prod.fst = out.map Item.token)
    (hreleased : ∀ a ∈ released, a.1.isNumber = false) (hkept : ∀ a ∈ kept, a.1.isNumber = false)
    (hbefore : ∀ a ∈ released, ∀ b ∈ rest, a.2 < b.2) :
    Deferral (released ++ order) (released ++ (kept ++ rest)) (out ++ items) := by
  refine h.append hout (List.pairwise_of_forall_mem_list fun a _ b hb hn => ?_) fun a ha b hb hn => ?_
  · rw [hreleased b hb] at hn
    cases hn
  · rcases List.mem_append.1 hb with hb | hb
    · rw [hkept b hb] at hn
      cases hn
    · exact hbefore a ha b hb

/-- A number comes in front of what is pending, and of what has not been read. -/
theorem number (h : Deferral order (waiting ++ rest) items) (hwaiting : ∀ a ∈ waiting, a.1.isNumber = false) {x : Float}
    {place : Nat} (hnext : ∀ b ∈ rest, place < b.2) :
    Deferral ((.number x, place) :: order) (waiting ++ (.number x, place) :: rest) (.number x :: items) := by
  have hfirst : ∀ a ∈ [(Token.number x, place)], ∀ b ∈ waiting ++ rest, b.1.isNumber = true → a.2 < b.2 := by
    intro a ha b hb hnumber
    obtain rfl := List.mem_singleton.1 ha
    rcases List.mem_append.1 hb with hb | hb
    · rw [hwaiting b hb] at hnumber
      cases hnumber
    · exact hnext b hb
  have hall : Deferral ([(.number x, place)] ++ order) ([(.number x, place)] ++ (waiting ++ rest))
      ([.number x] ++ items) := h.append rfl (List.pairwise_singleton _ _) hfirst
  refine hall.of_perm ?_
  rw [List.singleton_append]
  exact List.perm_middle.symm

/-- An operation is put on the stack when others have left it. -/
theorem operator {t : Token × Nat} (h : Deferral order (t :: kept ++ rest) items)
    (hout : released.map Prod.fst = out.map Item.token) (hreleased : ∀ a ∈ released, a.1.isNumber = false)
    (hkept : ∀ a ∈ t :: kept, a.1.isNumber = false) (hbefore : ∀ a ∈ released, ∀ b ∈ rest, a.2 < b.2) :
    Deferral (released ++ order) (released ++ kept ++ t :: rest) (out ++ items) := by
  refine (h.release hout hreleased hkept hbefore).of_perm ?_
  rw [List.append_assoc]
  exact List.perm_middle.symm.append_left released

/-- A group leaves the stack with its parentheses. -/
theorem group (h : Deferral order (kept ++ rest) items) (hout : released.map Prod.fst = out.map Item.token)
    (hreleased : ∀ a ∈ released, a.1.isNumber = false) (hkept : ∀ a ∈ kept, a.1.isNumber = false)
    (hbefore : ∀ a ∈ released, ∀ b ∈ rest, a.2 < b.2) {opening closing : Token × Nat}
    (hopening : opening.1.isParenthesis = true) (hclosing : closing.1.isParenthesis = true) :
    Deferral (released ++ order) (released ++ opening :: kept ++ closing :: rest) (out ++ items) := by
  have hall := ((h.release hout hreleased hkept hbefore).parenthesis hopening).parenthesis hclosing
  refine hall.of_perm (List.perm_middle.trans (.cons _ ?_)).symm
  rw [List.append_assoc]
  exact List.perm_middle

/-- Without their marks, the items are the tokens in some order. -/
theorem map_token_perm (h : Deferral order marked items) :
    (items.map Item.token).Perm ((marked.map Prod.fst).filter fun t => !t.isParenthesis) := by
  rw [← h.tokens, List.filter_map]
  exact h.perm.map Prod.fst

/-- Numbers do not change places among themselves. -/
theorem filter_isNumber (h : Deferral order marked items) (hmarked : marked.Pairwise fun a b => a.2 < b.2) :
    (items.map Item.token).filter Token.isNumber = (marked.map Prod.fst).filter Token.isNumber := by
  rw [← h.tokens, List.filter_map, List.filter_map]
  have hgroups : (marked.filter fun t => !t.1.isParenthesis).filter (Token.isNumber ∘ Prod.fst) =
      marked.filter (Token.isNumber ∘ Prod.fst) := by
    rw [List.filter_filter]
    refine List.filter_congr fun t _ => ?_
    obtain ⟨token, place⟩ := t
    cases token <;> rfl
  have hperm := h.perm.filter (Token.isNumber ∘ Prod.fst)
  rw [hgroups] at hperm
  -- both are in the order of their marks, and only one order is
  have horder : (order.filter (Token.isNumber ∘ Prod.fst)).Pairwise fun a b => a.2 < b.2 :=
    (h.numbers.filter _).imp_of_mem fun _ hb hab => hab (List.mem_filter.1 hb).2
  exact congrArg _ (hperm.eq_of_pairwise (fun _ _ _ _ hab hba => absurd hab hba.asymm) horder (hmarked.filter _))

end Deferral

theorem isNumber_of_waiting {stack : List Pending} {waiting : List (Token × Nat)}
    (h : waiting.map Prod.fst = stack.map Pending.token) : ∀ a ∈ waiting, a.1.isNumber = false := by
  intro a ha
  have hmem : a.1 ∈ stack.map Pending.token := h ▸ List.mem_map_of_mem ha
  obtain ⟨top, -, htop⟩ := List.mem_map.1 hmem
  rw [← htop]
  cases top <;> rfl

/-- Tokens that are put in order are deferred, together with what waits for them on the stack.  The stack is older than
the tokens, and these are marked in the order in which they are read. -/
theorem exists_deferral {stack : List Pending} {waiting later : List (Token × Nat)} {items : List Item}
    (h : arrange stack (later.map Prod.fst) = some items) (hwaiting : waiting.map Prod.fst = stack.map Pending.token)
    (hbefore : ∀ a ∈ waiting, ∀ b ∈ later, a.2 < b.2) (hlater : later.Pairwise fun a b => a.2 < b.2) :
    ∃ order, Deferral order (waiting ++ later) items := by
  induction later generalizing stack waiting items with
  | nil =>
    have hdone : Deferral [] ([] ++ []) [] := ⟨rfl, .refl _, .nil⟩
    have hout : waiting.map Prod.fst = items.map Item.token := hwaiting.trans (Pending.map_token_takeAll? h)
    have hall := hdone.release hout (isNumber_of_waiting hwaiting) nofun nofun
    rw [List.append_nil items] at hall
    exact ⟨_, hall⟩
  | cons t rest ih =>
    obtain ⟨hnext, hrest⟩ := List.pairwise_cons.1 hlater
    have hwaits : ∀ a ∈ waiting, ∀ b ∈ rest, a.2 < b.2 := fun a ha b hb => hbefore a ha b (List.mem_cons_of_mem t hb)
    have hnumber := isNumber_of_waiting hwaiting
    obtain ⟨token, place⟩ := t
    cases token with
    | number x =>
      obtain ⟨later, hitems, rfl⟩ := Option.map_eq_some_iff.1 h
      obtain ⟨order, horder⟩ := ih hitems hwaiting hwaits hrest
      exact ⟨_, horder.number hnumber hnext⟩
    | operator op =>
      obtain ⟨later, hitems, rfl⟩ := Option.map_eq_some_iff.1 h
      rw [Pending.map_token_takeBefore op stack] at hwaiting
      obtain ⟨released, kept, rfl, hout, hkept⟩ := List.map_eq_append_iff.1 hwaiting
      obtain ⟨hreleased, hkeeps⟩ := List.forall_mem_append.1 hwaits
      have hstack : ((Token.operator op, place) :: kept).map Prod.fst =
          (Pending.operator op :: (Pending.takeBefore op stack).2).map Pending.token := by
        rw [List.map_cons, List.map_cons, hkept]
        rfl
      obtain ⟨order, horder⟩ := ih hitems hstack (List.forall_mem_cons.2 ⟨hnext, hkeeps⟩) hrest
      have hgone := (List.forall_mem_append.1 hnumber).1
      exact ⟨_, horder.operator hout hgone (isNumber_of_waiting hstack) hreleased⟩
    | opening =>
      have hstack : ((Token.opening, place) :: waiting).map Prod.fst = (Pending.opening :: stack).map Pending.token := by
        rw [List.map_cons, hwaiting]
        rfl
      obtain ⟨order, horder⟩ := ih h hstack (List.forall_mem_cons.2 ⟨hnext, hwaits⟩) hrest
      exact ⟨order, horder.of_perm List.perm_middle.symm⟩
    | closing =>
      obtain ⟨⟨out, below⟩, hgroup, hmap⟩ := Option.bind_eq_some_iff.1 h
      obtain ⟨later, hitems, rfl⟩ := Option.map_eq_some_iff.1 hmap
      rw [Pending.map_token_takeGroup? hgroup] at hwaiting
      obtain ⟨released, group, rfl, hout, hgroup⟩ := List.map_eq_append_iff.1 hwaiting
      obtain ⟨opening, kept, rfl, hopening, hkept⟩ := List.map_eq_cons_iff.1 hgroup
      obtain ⟨hreleased, hkeeps⟩ := List.forall_mem_append.1 hwaits
      obtain ⟨order, horder⟩ := ih hitems hkept (List.forall_mem_cons.1 hkeeps).2 hrest
      have hgone := (List.forall_mem_append.1 hnumber).1
      have hparenthesis : opening.1.isParenthesis = true := by
        rw [hopening]
        rfl
      exact ⟨_, horder.group hout hgone (isNumber_of_waiting hkept) hreleased hparenthesis rfl⟩

/-! ## Tokens in order -/

theorem pairwise_zipIdx (tokens : List Token) : tokens.zipIdx.Pairwise fun a b => a.2 < b.2 := by
  rw [← List.pairwise_map (f := Prod.snd) (R := fun a b => a < b), List.zipIdx_map_snd]
  exact List.pairwise_lt_range'

/-- Tokens that are put in order are deferred from their own places. -/
theorem deferral_of_arrange {tokens : List Token} {items : List Item} (h : arrange [] tokens = some items) :
    ∃ order, Deferral order tokens.zipIdx items := by
  have hmarked : arrange [] (tokens.zipIdx.map Prod.fst) = some items := by
    rw [List.zipIdx_map_fst]
    exact h
  have hnothing : ([] : List (Token × Nat)).map Prod.fst = ([] : List Pending).map Pending.token := rfl
  exact exists_deferral hmarked hnothing nofun (pairwise_zipIdx tokens)

/-- What is put in order comes out as items, except for the parentheses. -/
theorem arrange_perm {tokens : List Token} {items : List Item} (h : arrange [] tokens = some items) :
    (items.map Item.token).Perm (tokens.filter fun t => !t.isParenthesis) := by
  obtain ⟨order, horder⟩ := deferral_of_arrange h
  have hperm := horder.map_token_perm
  rwa [List.zipIdx_map_fst] at hperm

theorem Item.token_injective : Function.Injective Item.token := by
  intro a b h
  cases a <;> cases b <;> cases h <;> rfl

namespace Postfix

theorem exists_arrange_of_ofText {text : Text} {p : Postfix} (h : ofText text = .ok p) :
    ∃ ts, tokens text = .ok ts ∧ arrange [] ts = some p.items := by
  cases htokens : tokens text with
  | error e =>
    rw [ofText, htokens] at h
    cases h
  | ok ts =>
    cases harrange : arrange [] ts with
    | none =>
      simp only [ofText, htokens, bind, Except.bind, harrange] at h
      cases h
    | some items =>
      simp only [ofText, htokens, bind, Except.bind, harrange] at h
      cases h
      exact ⟨ts, rfl, harrange⟩

/-- The items of any text that is put in postfix order, be it an expression or not, are its tokens without the
parentheses.  The numbers keep their order, no operation is lost or added, and each operation comes behind all the
numbers that it stood behind. -/
theorem deferral_of_ofText {text : Text} {p : Postfix} (h : ofText text = .ok p) :
    ∃ ts, tokens text = .ok ts ∧
      (p.items.map Item.token).Perm (ts.filter fun t => !t.isParenthesis) ∧
      (p.items.map Item.token).filter Token.isNumber = ts.filter Token.isNumber ∧
      (∀ op, p.items.count (.operator op) = ts.count (.operator op)) ∧
      ∃ order, Deferral order ts.zipIdx p.items := by
  obtain ⟨ts, hts, harrange⟩ := exists_arrange_of_ofText h
  obtain ⟨order, horder⟩ := deferral_of_arrange harrange
  have hperm := arrange_perm harrange
  have hnumbers := horder.filter_isNumber (pairwise_zipIdx ts)
  rw [List.zipIdx_map_fst] at hnumbers
  refine ⟨ts, hts, hperm, hnumbers, fun op => ?_, order, horder⟩
  calc p.items.count (.operator op)
      = (p.items.map Item.token).count (.operator op) :=
        (List.count_map_of_injective p.items Item.token Item.token_injective (.operator op)).symm
    _ = (ts.filter fun t => !t.isParenthesis).count (.operator op) := hperm.count_eq _
    _ = ts.count (.operator op) := List.count_filter rfl

/-- The unary minus and the product wait for the operands behind them, and the sum comes last without any. -/
theorem deferral_of_ofText_unfinished :
    let text := "-(2)3*()+".toList
    let two := Double.ofDecimal 2 0
    let three := Double.ofDecimal 3 0
    let ts := [.operator .negate, .opening, .number two, .closing, .number three, .operator (.binary .mul), .opening,
      .closing, .operator (.binary .add)]
    let items := [.number two, .number three, .operator .negate, .operator (.binary .mul), .operator (.binary .add)]
    ofText text = .ok ⟨text, items⟩ ∧ tokens text = .ok ts ∧
      (items.map Item.token).filter Token.isNumber = ts.filter Token.isNumber ∧
      ∃ order, Deferral order ts.zipIdx items := by
  intro text two three ts items
  have hitems : ofText text = .ok ⟨text, items⟩ := rfl
  have htokens : tokens text = .ok ts := rfl
  obtain ⟨ts', hts, -, hnumbers, -, horder⟩ := deferral_of_ofText hitems
  obtain rfl : ts = ts' := Except.ok.inj (htokens.symm.trans hts)
  exact ⟨hitems, htokens, hnumbers, horder⟩

end Postfix

end Expression
end DocState
