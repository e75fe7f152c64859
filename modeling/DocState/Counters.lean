import DocState.Number
import DocState.Table
import DocState.Update

/-!
# The counters of a document

A counter may be reset by one other counter, its parent: each step of the parent sets it and all counters
below it to zero. Apart from that, a counter may be displayed behind another one, as in `2.1`.

* `Counter`, `Counters`: counters by place, in order of creation, and linked by place; a name leads to a place.
* `Counters.create`, `Counters.find`, `Counters.set`, `Counters.add`: single counters.
* `Counters.step`: the next value of a counter, and zero for all counters below it.
* `Counters.attach`, `Counters.detach`: the links between counters. A link that would close a circle is
  refused.
* `Counters.render`: the text of a counter behind its prefixes.
-/

namespace DocState

/-- How a counter is displayed: alone, or behind the counter at a place and a dot. -/
inductive Display
  | plain
  | behind (place : Nat)
deriving DecidableEq, Repr

/-- The counter that is displayed in front. -/
def Display.prefix? : Display → Option Nat
  | .plain => none
  | .behind i => some i

/-- A counter with its links. -/
structure Counter where
  name : Text
  value : Number
  /-- The place of the counter that resets this one. -/
  parent : Option Nat
  /-- The places of the counters that this one resets, the first attached first. -/
  children : List Nat
  display : Display
deriving DecidableEq, Repr

/-- The counters of a document. No counter ever leaves its place. -/
structure Counters where
  /-- The counters by place, the oldest first. -/
  arena : List Counter
  /-- The place of each name. -/
  places : Table Text Nat
deriving DecidableEq, Repr

namespace Counters

/-- No counters. -/
def empty : Counters := ⟨[], .empty⟩

instance : Inhabited Counters := ⟨empty⟩

/-- Whether a counter is there. -/
def contains (cs : Counters) (name : Text) : Bool := cs.places.contains name

/-- The number of counters. -/
def size (cs : Counters) : Nat := cs.arena.length

/-- The names of the counters, the oldest first. -/
def names (cs : Counters) : List Text := cs.arena.map (·.name)

/-- The place of a counter that has to be there. -/
def place (cs : Counters) (name : Text) : Except Error Nat :=
  match cs.places.get? name with
  | some i => .ok i
  | none => .error (.undefinedCounter name)

/-- A counter by name. -/
def find? (cs : Counters) (name : Text) : Option Counter :=
  (cs.places.get? name).bind fun i => cs.arena[i]?

/-- A counter that has to be there. -/
def find (cs : Counters) (name : Text) : Except Error Counter :=
  match cs.find? name with
  | some counter => .ok counter
  | none => .error (.undefinedCounter name)

/-- The value of a counter. -/
def value (cs : Counters) (name : Text) : Except Error Number := do
  return (← cs.find name).value

/-! ## The links -/

/-- The counter that resets a counter. -/
def parentOf (cs : Counters) (i : Nat) : Option Nat := cs.arena[i]?.bind (·.parent)

/-- The counters that a counter resets. -/
def childrenOf (cs : Counters) (i : Nat) : List Nat := (cs.arena[i]?.map (·.children)).getD []

/-- The counter that a counter is displayed behind. -/
def prefixOf (cs : Counters) (i : Nat) : Option Nat := cs.arena[i]?.bind (·.display.prefix?)

/-- A place and those that follow it along a link, at most `bound` of them. -/
def chain (next : Nat → Option Nat) : Nat → Nat → List Nat
  | 0, _ => []
  | bound + 1, i =>
    i :: match next i with
      | none => []
      | some following => chain next bound following

/-- A counter, its parent, the parent of that, and so on. -/
def ancestry (cs : Counters) (i : Nat) : List Nat := chain cs.parentOf cs.size i

/-- A counter, the one that it is displayed behind, and so on. -/
def prefixes (cs : Counters) (i : Nat) : List Nat := chain cs.prefixOf cs.size i

/-! ## Changes at a place -/

/-- Changes the counter at a place, if there is one. -/
def modify (cs : Counters) (i : Nat) (f : Counter → Counter) : Counters :=
  { cs with arena := cs.arena.modify i f }

/-- Puts a counter at the next place. -/
def push (cs : Counters) (counter : Counter) : Counters :=
  ⟨cs.arena ++ [counter], cs.places.insert counter.name cs.size⟩

/-- Appends a counter to the children of another one. -/
def addChild (cs : Counters) (parent i : Nat) : Counters :=
  cs.modify parent fun c => { c with children := c.children ++ [i] }

/-- Takes a counter out of the children of its parent. -/
def dropChild (cs : Counters) (i : Nat) : Counters :=
  match cs.parentOf i with
  | none => cs
  | some parent => cs.modify parent fun c => { c with children := c.children.erase i }

/-! ## Single counters -/

/-- The place of a parent, if there is to be one. -/
def parentPlace (cs : Counters) : Option Text → Except Error (Option Nat)
  | none => .ok none
  | some name => some <$> cs.place name

/-- Creates a counter with a value at the next place, which is answered, and as the last child of `parent` if
one is given. The name must be new and the parent must be there; the name is looked up first. -/
def create (name : Text) (parent : Option Text) (initial : Number) : Update Counters Nat := do
  let cs ← getThe Counters
  if cs.contains name then throw (.duplicateCounter name)
  let above ← Update.ofExcept (cs.parentPlace parent)
  modifyThe Counters fun cs => cs.push ⟨name, initial, above, [], .plain⟩
  if let some above := above then
    modifyThe Counters fun now => now.addChild above cs.size
  return cs.size

/-- Gives a counter a value. The counters below it stay as they are. -/
def set (name : Text) (value : Number) : Update Counters Unit := do
  let i ← Update.ofExcept ((← getThe Counters).place name)
  modifyThe Counters fun cs => cs.modify i fun c => { c with value }

/-- Adds to a counter, within the range of numbers. The counters below it stay as they are. -/
def add (name : Text) (delta : Number) : Update Counters Unit := do
  let i ← Update.ofExcept ((← getThe Counters).place name)
  modifyThe Counters fun cs => cs.modify i fun c => { c with value := c.value.plus delta }

/-! ## Steps -/

/-- Adds one to a counter and steps each of its children from minus one, so that the children land on zero and
hand the step on, down to `depth` levels. -/
def stepAt : Nat → Nat → Counters → Counters
  | 0, _, cs => cs
  | depth + 1, i, cs =>
    (cs.childrenOf i).foldl (fun cs child => stepAt depth child (cs.modify child fun c => { c with value := -1 }))
      (cs.modify i fun c => { c with value := c.value.plus 1 })

/-- Adds one to a counter and sets all counters below it to zero. -/
def step (name : Text) : Update Counters Unit := do
  let i ← Update.ofExcept ((← getThe Counters).place name)
  modifyThe Counters fun cs => stepAt cs.size i cs

/-! ## Attaching and detaching -/

/-- Whether a counter would be reset through itself if `above` reset it, or, with `display`, displayed through
itself if it were displayed behind `above`. -/
def closesCircle (cs : Counters) (i above : Nat) (display : Bool) : Bool :=
  (cs.ancestry above).contains i || (display && (cs.prefixes above).contains i)

/-- Makes `above` the parent of a counter, which leaves its former parent and becomes the last child of
`above`. With `display`, the counter is displayed behind `above` from now on. -/
def attach (name above : Text) (display : Bool) : Update Counters Unit := do
  let cs ← getThe Counters
  let i ← Update.ofExcept (cs.place name)
  let parent ← Update.ofExcept (cs.place above)
  if cs.closesCircle i parent display then throw (.counterCycle name above)
  modifyThe Counters fun cs => cs.dropChild i
  modifyThe Counters fun cs => cs.addChild parent i
  modifyThe Counters fun cs => cs.modify i fun c =>
    { c with parent := some parent, display := if display then .behind parent else c.display }

/-- Frees a counter from its parent `above` and displays it alone. If `above` is not its parent, nothing
changes. -/
def detach (name above : Text) : Update Counters Unit := do
  let cs ← getThe Counters
  let i ← Update.ofExcept (cs.place name)
  let parent ← Update.ofExcept (cs.place above)
  if cs.parentOf i = some parent then
    modifyThe Counters fun cs => cs.dropChild i
    modifyThe Counters fun cs => cs.modify i fun c => { c with parent := none, display := .plain }

/-! ## Display -/

/-- The value of a counter, behind the text of the counter in front of it and a dot if there is one, with at
most `bound` values. -/
def renderAt (cs : Counters) : Nat → Nat → Text
  | 0, _ => []
  | bound + 1, i =>
    match cs.arena[i]? with
    | none => []
    | some counter =>
      match counter.display with
      | .plain => counter.value.text
      | .behind before => cs.renderAt bound before ++ '.' :: counter.value.text

/-- The text of a counter with its prefixes. -/
def render (cs : Counters) (name : Text) : Except Error Text := do
  let i ← cs.place name
  return cs.renderAt cs.size i

end Counters

end DocState
