import DocState.Argument.Prepared
import DocState.Proofs.Counters.WellFormed
import DocState.Proofs.Effects.Commands
import DocState.Proofs.Readback.Loops

/-!
# All names are valid

Where names are checked, a name comes into a session only as one that a command has read and that the check has passed.

* `Session.Served options`: the sessions that commands on any sources, and resets, lead to.
* `Session.ValidNames`: nothing in the session has an invalid name.  `Session.ValidNames.effect`: no change of a command
  puts one in.
* `Session.validNames_of_served`: where names are checked, all names stay valid.
-/

namespace DocState

open Procedure

namespace Session

/-! ## Definitions -/

/-- Sessions that begin with these options and run commands, each on a source of any kind and with any memory, or are
reset. -/
inductive Served (options : Options) : Session → Prop
  | fresh : Served options (fresh options)
  | run {s : Session} {σ : Type} [ArgumentSupply σ] [Memory] (hs : Served options s) (name : Text) (source : σ) :
    Served options (s.run name source).2.session
  | reset {s : Session} (hs : Served options s) : Served options s.reset

/-- All names of counters, of flags in both namespaces, of lists and of list parsers are valid. -/
structure ValidNames (s : Session) : Prop where
  counters : ∀ name ∈ s.counters.places.keys, Name.isValid name = true
  arena : ∀ name ∈ s.counters.names, Name.isValid name = true
  flags : ∀ key ∈ s.flags.table.keys, Name.isValid key.2 = true
  lists : ∀ name ∈ s.lists.table.keys, Name.isValid name = true
  parsers : ∀ name ∈ s.parsers.keys, Name.isValid name = true

end Session

theorem Table.mem_keys_insert {κ α : Type} [DecidableEq κ] {t : Table κ α} {k j : κ} {a : α}
    (h : j ∈ (t.insert k a).keys) : j = k ∨ j ∈ t.keys := by
  rw [Table.keys_insert] at h
  split at h
  · exact .inr h
  · exact (List.mem_append.1 h).symm.imp_left List.mem_singleton.1

namespace Session

variable {s s' : Session} {options : Options}

theorem validNames_fresh (options : Options) : (fresh options).ValidNames where
  counters _ h := nomatch h
  arena _ h := nomatch h
  flags _ h := nomatch h
  lists _ h := nomatch h
  parsers _ h := nomatch h

/-- A name that a checking session has read. -/
theorem Given.isValid {σ : Type} [ArgumentSupply σ] {command name : Text} {source : σ} {marked : Bool}
    (h : s.Given command source marked name) (hchecks : s.options.checkNames = true) : Name.isValid name = true := by
  obtain ⟨raw, -, hname⟩ := h
  exact (Session.name_eq_ok_iff.1 hname).2 hchecks

/-- The names that a command puts in are those that it has read. -/
theorem ValidNames.effect {σ : Type} [ArgumentSupply σ] {command : Text} {source : σ} {c : Command} (h : s.ValidNames)
    (hchecks : s.options.checkNames = true) (heffect : Command.Effect s command source c s') : s'.ValidNames := by
  cases heffect with
  | unchanged c => exact h
  | create hname =>
    refine { h with counters := fun name hmem => ?_, arena := fun name hmem => ?_ }
    · rw [Counters.places_grow] at hmem
      rcases Table.mem_keys_insert hmem with rfl | hbefore
      · exact hname.isValid hchecks
      · exact h.counters name hbefore
    · rw [Counters.names_grow] at hmem
      rcases List.mem_append.1 hmem with hbefore | hnew
      · exact h.arena name hbefore
      · exact List.mem_singleton.1 hnew ▸ hname.isValid hchecks
  | assign f hassigns hi => exact { h with arena := fun name hmem => h.arena name (Counters.names_revalue _ ▸ hmem) }
  | step f => exact { h with arena := fun name hmem => h.arena name (Counters.names_revalue _ ▸ hmem) }
  | link hlinks i parent display =>
    refine { h with counters := fun name hmem => ?_, arena := fun name hmem => ?_ }
    · rw [Counters.places_rewire] at hmem
      exact h.counters name hmem
    · rw [Counters.names_rewire] at hmem
      exact h.arena name hmem
  | flag value hname =>
    refine { h with flags := fun key hmem => ?_ }
    rcases Table.mem_keys_insert hmem with rfl | hbefore
    · exact hname.isValid hchecks
    · exact h.flags key hbefore
  | list items hname =>
    refine { h with lists := fun name hmem => ?_ }
    rcases Table.mem_keys_insert hmem with rfl | hbefore
    · exact hname.isValid hchecks
    · exact h.lists name hbefore
  | declare parser hname =>
    refine { h with parsers := fun name hmem => ?_ }
    rcases Table.mem_keys_insert hmem with rfl | hbefore
    · exact hname.isValid hchecks
    · exact h.parsers name hbefore

theorem Served.options_eq (h : Served options s) : s.options = options := by
  induction h with
  | fresh => rfl
  | @run s σ _ _ hs name source ih =>
    cases hc : Command.lookup? name with
    | some c => exact (s.effect_run name source hc).options_eq.trans ih
    | none => exact (congrArg Session.options (s.run_of_lookup?_eq_none name source hc)).trans ih
  | reset hs ih => exact ih

/-- If names are checked, then whatever commands have been run on whatever sources, accepted or refused, all names in
the session are valid. -/
theorem validNames_of_served (hchecks : options.checkNames = true) (h : Served options s) : s.ValidNames := by
  induction h with
  | fresh => exact validNames_fresh options
  | @run s σ _ _ hs name source ih =>
    cases hc : Command.lookup? name with
    | some c => exact ih.effect (hs.options_eq ▸ hchecks) (s.effect_run name source hc)
    | none => exact (s.run_of_lookup?_eq_none name source hc).symm ▸ ih
  | reset hs ih => exact validNames_fresh _

/-- A document behind another one: names with a backslash and without, from a text and from a host, and one that is
refused. -/
theorem validNames_of_served_document :
    let _ : Memory := .upTo 4096
    let s := (((fresh .standard).run "newcounter".toList (Scanner.mk "{page}".toList)).2.session).reset
    let s := (s.run "newcounter".toList (Scanner.mk "\\chapter".toList)).2.session
    let s := (s.run "newtoggle".toList (Prepared.ofList ["two words".toList])).2.session
    let s := (s.run "providetoggle".toList (Prepared.ofList ["draft".toList])).2.session
    let s := (s.run "listadd".toList (Prepared.ofList ["\\authors".toList, ['{']])).2.session
    let s := (s.run "DeclareListParser".toList (Scanner.mk "*\\each,".toList)).2.session
    Options.standard.checkNames = true ∧ Served .standard s ∧
      s = ⟨⟨[⟨"chapter".toList, 0, none, [], .plain⟩], ⟨[("chapter".toList, 0)]⟩⟩,
        ⟨⟨[((.toggle, "draft".toList), false)]⟩⟩, ⟨⟨[("authors".toList, [['{']])]⟩⟩,
        ⟨[("each".toList, ⟨[','], true⟩)]⟩, .standard⟩ ∧ s.ValidNames := by
  intro _ s₁ s₂ s₃ s₄ s₅ s₆
  have hserved : Served .standard s₆ :=
    .run (.run (.run (.run (.run (.reset (.run .fresh _ _)) _ _) _ _) _ _) _ _) _ _
  exact ⟨rfl, hserved, by rfl, validNames_of_served rfl hserved⟩

end Session
end DocState
