import Packrat.Proofs.HandedPhrases
import Packrat.Proofs.History
import Packrat.Proofs.StackDiscipline
import Packrat.Proofs.TableUsers
import Packrat.Proofs.TiledPhrases
import Packrat.Proofs.TiledTexts

/-!
# Grammars keep phrases tiled

Where every table has one user, each table is asked and filled for one kind of phrase, and a
result that is found is taken at once.  The procedures of such a grammar are therefore
disciplined: all along a parse the open phrases are tiled by their children, so the texts that
an action may ask for exist and compose.
-/

namespace Packrat

variable {Value : Type} {setting : Setting Value} {kind : Nat → PhraseUse} {count : Nat}

namespace Core

/-- The reservations of the open phrases, innermost first. -/
def reservations (core : Core Value) : List (Option Ticket) :=
  core.stack.2.map Frame.ticket

/-- Between two expressions nothing waits to be reused, and there are enough tables. -/
structure Ready (source : Source) (kind : Nat → PhraseUse) (count : Nat)
    (core : Core Value) : Prop where
  sound : core.Sound source kind none
  count_le : count ≤ core.tables.length

variable {core before after : Core Value} {primitive : Primitive} {answer : Option Bool}

theorem reservations_changeInnermost (change : Phrase Value → Phrase Value)
    (stack : Stack Value) :
    (stack.changeInnermost change).2.map Frame.ticket = stack.2.map Frame.ticket := by
  obtain ⟨top, frames⟩ := stack
  cases frames <;> rfl

/-- Tables are never lost. -/
theorem Step.length_tables_le (hstep : Core.Step setting primitive before answer after) :
    before.tables.length ≤ after.tables.length := by
  have hlabels := congrArg List.length hstep.labels
  rw [List.length_append, List.length_map, List.length_map] at hlabels
  omega

end Core

namespace Procedure

/-- From a ready core on all calls are permitted and keep the open phrases tiled, and the
procedure ends on a ready core with the same phrases open. -/
def IsDisciplined (setting : Setting Value) (kind : Nat → PhraseUse) (count : Nat)
    (procedure : Procedure Value) : Prop :=
  ∀ core : Core Value, core.Ready setting.source kind count →
    procedure.Ensures setting (fun between => ∃ due, between.Sound setting.source kind due)
      (fun _ after => after.Ready setting.source kind count ∧
        after.reservations = core.reservations) core

namespace IsDisciplined

variable {procedure body again : Procedure Value} {next : Bool → Procedure Value}

theorem done (matched : Bool) :
    (Procedure.done matched : Procedure Value).IsDisciplined setting kind count :=
  fun _ hready => ⟨hready, rfl⟩

theorem exhausted :
    (Procedure.exhausted : Procedure Value).IsDisciplined setting kind count :=
  fun _ _ => trivial

theorem remarked (hprocedure : procedure.IsDisciplined setting kind count) (name : String) :
    (procedure.remarked name).IsDisciplined setting kind count :=
  fun core hready => (hprocedure core hready).remarked name

theorem andThen (hprocedure : procedure.IsDisciplined setting kind count)
    (hnext : ∀ matched, (next matched).IsDisciplined setting kind count) :
    (procedure.andThen next).IsDisciplined setting kind count := by
  intro core hready
  apply Ensures.andThen
  apply (hprocedure core hready).mono
  rintro matched between ⟨hbetween, hsame⟩
  apply (hnext matched between hbetween).mono
  rintro _ after ⟨hafter, hlast⟩
  exact ⟨hafter, hlast.trans hsame⟩

theorem ite {condition : Prop} [Decidable condition]
    (hthen : body.IsDisciplined setting kind count)
    (helse : again.IsDisciplined setting kind count) :
    (if condition then body else again).IsDisciplined setting kind count := by
  split
  · exact hthen
  · exact helse

theorem all {Item : Type} {items : List Item} {procedure : Item → Procedure Value}
    (hitems : ∀ item ∈ items, (procedure item).IsDisciplined setting kind count) :
    (Procedure.all (items.map procedure)).IsDisciplined setting kind count := by
  induction items with
  | nil => exact .done true
  | cons item rest ih =>
      obtain ⟨hitem, hrest⟩ := List.forall_mem_cons.mp hitems
      exact hitem.andThen fun _ => .ite (ih hrest) (.done false)

theorem any {Item : Type} {items : List Item} {procedure : Item → Procedure Value}
    (hitems : ∀ item ∈ items, (procedure item).IsDisciplined setting kind count) :
    (Procedure.any (items.map procedure)).IsDisciplined setting kind count := by
  induction items with
  | nil => exact .done false
  | cons item rest ih =>
      obtain ⟨hitem, hrest⟩ := List.forall_mem_cons.mp hitems
      exact hitem.andThen fun _ => .ite (.done true) (ih hrest)

theorem look {view : Nat → Procedure Value}
    (hview : ∀ position, (view position).IsDisciplined setting kind count) :
    (Procedure.look view).IsDisciplined setting kind count :=
  fun core hready => hview core.position core hready

theorem round (hbody : body.IsDisciplined setting kind count)
    (hagain : again.IsDisciplined setting kind count) :
    (Procedure.round body again).IsDisciplined setting kind count :=
  .look fun _ => hbody.andThen fun _ =>
    .ite (.look fun _ => .ite (.done true) hagain) (.done true)

/-! ## Calls -/

theorem terminal {primitive : Primitive} {attempt : Attempt Value}
    (hattempt : primitive.attempt? setting.source = some attempt) :
    (Procedure.call primitive).IsDisciplined setting kind count := by
  intro core hready
  apply Ensures.call
  · cases primitive <;> trivial
  · intro answer after hstep
    have hcount := Nat.le_trans hready.count_le hstep.length_tables_le
    obtain ⟨effect, heffect, rfl, rfl⟩ := hstep.eq_of_attempt hattempt
    have hfits := (Machine.fitsAt_of_attempt? hready.sound.tiled.cursor_le_length hattempt
      heffect).1
    have hsound := hready.sound.undergo hfits
    exact ⟨⟨none, hsound⟩, ⟨hsound, hcount⟩, Core.reservations_changeInnermost _ core.stack⟩

/-- A phrase whose result is to be stored is closed for the use that its table is for. -/
theorem closedAfter (hbody : body.IsDisciplined setting kind count) (enclosure : Enclosure)
    {core : Core Value} {ticket? : Option Ticket} {outer : List (Option Ticket)}
    (hready : core.Ready setting.source kind count)
    (hopened : core.reservations = ticket? :: outer)
    (hkind : ∀ ticket ∈ ticket?, enclosure.use = kind ticket.table) :
    (Procedure.closedAfter enclosure body).Ensures setting
      (fun between => ∃ due, between.Sound setting.source kind due)
      (fun _ after => after.Ready setting.source kind count ∧ after.reservations = outer)
      core := by
  apply Ensures.andThen
  apply (hbody core hready).mono
  rintro matched between ⟨hbetween, hsame⟩
  obtain ⟨frame, frames, hframes, hticket, houter⟩ :
      ∃ frame frames, between.stack.2 = frame :: frames ∧ frame.ticket = ticket? ∧
        frames.map Frame.ticket = outer := by
    rw [hopened, Core.reservations, List.map_eq_cons_iff] at hsame
    exact hsame
  apply Ensures.call
  · simp [Core.Permits, hframes]
  · intro answer after hstep
    have hcount := Nat.le_trans hbetween.count_le hstep.length_tables_le
    have hsound := Machine.step_sound hstep hbetween.sound (by
      rintro closing hclosing ticket hmember
      obtain rfl := Primitive.close.inj hclosing
      rw [Enclosure.use_closing]
      apply hkind ticket
      rw [hframes] at hmember
      rw [← hticket]
      exact hmember)
    obtain ⟨phrase, part, own, rest, hopen, _, _, rfl⟩ := hstep.eq_of_close
    obtain ⟨_, rfl⟩ := List.cons.inj (hframes.symm.trans hopen)
    exact ⟨⟨none, hsound⟩, ⟨hsound, hcount⟩,
      (Core.reservations_changeInnermost _ _).trans houter⟩

theorem beginning (hbody : body.IsDisciplined setting kind count) (enclosure : Enclosure)
    (label : TableLabel) :
    (Procedure.beginning enclosure label body).IsDisciplined setting kind count := by
  intro core hready
  refine ⟨trivial, ?_⟩
  intro answer after hstep
  have hcount := Nat.le_trans hready.count_le hstep.length_tables_le
  have hsound := Machine.step_sound hstep hready.sound nofun
  have hopened : after.reservations = none :: core.reservations := by
    rw [hstep.eq_of_begin]
    rfl
  exact ⟨⟨none, hsound⟩, hbody.closedAfter enclosure ⟨hsound, hcount⟩ hopened (by simp)⟩

/-- Taking a result that a table has offered for the use that the table is for. -/
theorem reuse {core : Core Value} {index : Nat} {part : Phrase Value}
    (hcandidate : core.candidate = some part)
    (hsound : core.Sound setting.source kind (some index))
    (hcount : count ≤ core.tables.length) :
    (Procedure.call (.reuse (kind index))).Ensures setting
      (fun between => ∃ due, between.Sound setting.source kind due)
      (fun _ after => after.Ready setting.source kind count ∧
        after.reservations = core.reservations) core := by
  apply Ensures.call
  · simp [Core.Permits, hcandidate]
  · intro answer after hstep
    have hcount := Nat.le_trans hcount hstep.length_tables_le
    obtain ⟨taken, htaken, rfl, rfl⟩ := hstep.eq_of_reuse
    obtain ⟨other, hdue, hfits⟩ := hsound.candidate taken htaken
    obtain rfl := Option.some.inj hdue
    have hafter := Core.Sound.absorbed core hsound.tiled hsound.books hfits
    exact ⟨⟨none, hafter⟩, ⟨hafter, hcount⟩, Core.reservations_changeInnermost _ core.stack⟩

theorem consulting (hbody : body.IsDisciplined setting kind count) {enclosure : Enclosure}
    {index : Nat} (hkind : enclosure.use = kind index) (hindex : index < count) (inner : Bool) :
    (Procedure.consulting enclosure index inner body).IsDisciplined setting kind count := by
  intro core hready
  refine ⟨Nat.lt_of_lt_of_le hindex hready.count_le, ?_⟩
  intro answer after hstep
  have hcount := Nat.le_trans hready.count_le hstep.length_tables_le
  have hsound := Machine.step_sound hstep hready.sound nofun
  refine ⟨⟨_, hsound⟩, ?_⟩
  cases hstep with
  | hit | pending =>
      simp only [Option.getD_some, if_true, hkind]
      exact reuse rfl hsound hcount
  | miss =>
      apply hbody.closedAfter enclosure ⟨hsound, hcount⟩ rfl
      intro ticket hticket
      obtain ⟨reservation, _, rfl⟩ := Option.map_eq_some_iff.mp hticket
      exact hkind
  | terminal _ hattempt => simp [Primitive.attempt?] at hattempt

end IsDisciplined

end Procedure

/-! ## Grammars -/

namespace Grammar

variable {grammar : Grammar}

/-- Every table is used for phrases of its kind. -/
def UsesFor (grammar : Grammar) (kind : Nat → PhraseUse) : Prop :=
  ∀ user ∈ grammar.users, user.2.enclosure.use = kind user.1

/-- Where no table is used twice, the user of a table says what it is used for. -/
theorem exists_usesFor (hexclusive : grammar.tablesInUse.Nodup) :
    ∃ kind, grammar.UsesFor kind := by
  let user? (index : Nat) := grammar.users.find? (·.1 == index)
  refine ⟨fun index => ((user? index).map (·.2.enclosure.use)).getD .rule, ?_⟩
  rintro ⟨index, expression⟩ huser
  cases hfound : user? index with
  | none => simpa using List.find?_eq_none.mp hfound _ huser
  | some other =>
      obtain rfl : other.1 = index := by simpa using List.find?_some hfound
      obtain rfl := user_unique hexclusive huser (List.mem_of_find?_eq_some hfound)
      simp only [hfound, Option.map_some, Option.getD_some]

theorem inside_isDisciplined {opening : Opening} {enclosure : Enclosure}
    {body : Procedure Value} (hopening : opening.isCovered grammar = true)
    (hkind : ∀ table ∈ opening.table?, enclosure.use = kind table)
    (hbody : body.IsDisciplined setting kind grammar.tables.length) :
    (Procedure.inside opening enclosure body).IsDisciplined setting kind
      grammar.tables.length := by
  cases opening with
  | plain diagnosis => exact hbody.beginning enclosure ⟨"", diagnosis⟩
  | memoized table =>
      exact hbody.consulting (hkind table rfl) (of_decide_eq_true hopening) true

theorem ofRule_isDisciplined {rule : Rule} {body : Procedure Value}
    (htable : rule.table.all (· < grammar.tables.length) = true)
    (hkind : ∀ table ∈ rule.table, PhraseUse.rule = kind table)
    (hbody : body.IsDisciplined setting kind grammar.tables.length) :
    (Procedure.ofRule rule body).IsDisciplined setting kind grammar.tables.length := by
  rw [Procedure.ofRule]
  cases hrule : rule.table with
  | none => exact hbody.beginning .rule ⟨rule.name, rule.diagnosis⟩
  | some table =>
      rw [hrule] at htable
      have huse : Enclosure.rule.use = kind table := hkind table hrule
      exact hbody.consulting huse (of_decide_eq_true htable) false

/-- The induction is on the steps, since a rule leads to expressions that are no parts of it. -/
theorem procedure_isDisciplined (hgrammar : grammar.isComplete = true)
    (hkind : grammar.UsesFor kind) (steps : Nat) {expression : Expression}
    (hexpression : expression.isCovered grammar = true)
    (husers : expression.users ⊆ grammar.users) :
    (grammar.procedure steps expression : Procedure Value).IsDisciplined setting kind
      grammar.tables.length := by
  induction steps generalizing expression with
  | zero => exact .exhausted
  | succ steps ih =>
      have hparts : ∀ part ∈ grammar.parts expression, part.isCovered grammar = true →
          (grammar.procedure steps part : Procedure Value).IsDisciplined setting kind
            grammar.tables.length := fun part hpart hcovered =>
        ih hcovered (users_parts_subset husers hpart)
      have htable : ∀ table, grammar.table? expression = some table →
          expression.enclosure.use = kind table := fun table htable =>
        hkind _ (mem_users_of_table husers htable)
      cases expression with
      | terminal | ahead | aheadNot => exact .terminal rfl
      | rule name =>
          obtain ⟨rule, hrule⟩ := Option.isSome_iff_exists.mp hexpression
          obtain ⟨hcovered, hbody⟩ := covered_of_rule? hgrammar hrule
          simp only [procedure, hrule]
          simp only [parts, table?, hrule, Option.map_some, Option.getD_some,
            Option.bind_some] at hparts htable
          have hall := Procedure.IsDisciplined.all fun part hpart =>
            hparts part hpart (hbody part hpart)
          exact (ofRule_isDisciplined hcovered htable hall).remarked name
      | choice alternatives =>
          have hcovered := Expression.areCovered_iff.mp hexpression
          exact .any fun part hpart => hparts part hpart (hcovered part hpart)
      | optional body =>
          exact (hparts body (List.mem_singleton.mpr rfl) hexpression).andThen fun _ => .done true
      | star body =>
          have hbody := hparts body List.mem_cons_self hexpression
          exact hbody.round (ih hexpression husers)
      | plus body =>
          have hbody := hparts body List.mem_cons_self hexpression
          have hagain := hparts (.star body) (List.mem_cons_of_mem _ List.mem_cons_self)
            hexpression
          exact hbody.andThen fun _ => .ite hagain (.done false)
      | sequence opening items =>
          obtain ⟨hopening, hitems⟩ := Bool.and_eq_true_iff.mp hexpression
          have hcovered := Expression.areCovered_iff.mp hitems
          have hall := Procedure.IsDisciplined.all fun part hpart =>
            hparts part hpart (hcovered part hpart)
          exact inside_isDisciplined hopening htable hall
      | andPredicate opening argument =>
          obtain ⟨hopening, hargument⟩ := Bool.and_eq_true_iff.mp hexpression
          have hbody := hparts argument (List.mem_singleton.mpr rfl) hargument
          exact inside_isDisciplined hopening htable hbody
      | notPredicate opening argument =>
          obtain ⟨hopening, hargument⟩ := Bool.and_eq_true_iff.mp hexpression
          have hbody := hparts argument (List.mem_singleton.mpr rfl) hargument
          exact inside_isDisciplined hopening htable hbody

theorem rootProcedure_isDisciplined (hgrammar : grammar.isComplete = true)
    (hkind : grammar.UsesFor kind) (steps : Nat) :
    (grammar.rootProcedure steps : Procedure Value).IsDisciplined setting kind
      grammar.tables.length := by
  rw [rootProcedure]
  cases hrules : grammar.rules with
  | nil => simp [isComplete, hrules] at hgrammar
  | cons rule rest =>
      apply procedure_isDisciplined hgrammar hkind
      · simp [Expression.isCovered, rule?, hrules]
      · simp [Expression.users]

end Grammar

/-! ## Texts -/

namespace Core.Sound

variable {core : Core Value} {due : Option Nat}

/-- The innermost phrase, accepted at the cursor, is tiled by its children. -/
theorem textsCompose_accepted (hsound : core.Sound setting.source kind due)
    {frame : Frame Value} {outer : List (Frame Value)} (hframes : core.stack.2 = frame :: outer) :
    (frame.phrase.accepted core.position).TextsCompose setting.source := by
  have htiled := hsound.tiled
  have hcursor := htiled.cursor_le_length
  rw [hframes] at htiled
  have haccepted : (frame.phrase.accepted core.position).TiledTo setting.source
      (frame.phrase.accepted core.position).stop := htiled.1
  exact haccepted.textsCompose hcursor

end Core.Sound

namespace Grammar

variable {grammar : Grammar} {machine : Machine Value}

/-- In a parse, after every call and where it ends or faults, all phrases that actions have been
given have texts that compose. -/
theorem texts_of_accepted_phrases_compose (grammar : Grammar) (setting : Setting Value)
    (hgrammar : grammar.isComplete = true) (hexclusive : grammar.tablesInUse.Nodup)
    (hmachine : machine.HasTablesOf grammar) (steps : Nat) :
    (∀ call ∈ (grammar.rootProcedure steps).calls setting (machine.start setting),
      ∀ phrase, .action phrase ∈ call.after.journal.entries →
        phrase.TextsCompose setting.source) ∧
      ∀ after, (grammar.parse setting steps machine).LeadsTo after →
        ∀ phrase, .action phrase ∈ after.journal.entries →
          phrase.TextsCompose setting.source := by
  obtain ⟨kind, hkind⟩ := exists_usesFor hexclusive
  have hready : (machine.start setting).core.Ready setting.source kind grammar.tables.length :=
    ⟨Machine.start_sound, (Machine.start_forward setting hmachine).count_le⟩
  have hroot := rootProcedure_isDisciplined hgrammar hkind steps _ hready
  obtain ⟨hcalls, hrun⟩ := hroot.handed (rootProcedure_isDiscreet grammar steps)
    (fun _ ⟨_, hsound⟩ _ _ hframes => hsound.textsCompose_accepted hframes)
    ⟨none, hready.sound⟩ (List.forall_mem_nil _)
  constructor
  · exact fun call hcall phrase hphrase =>
      hcalls call hcall phrase (Machine.mem_handed.mpr hphrase)
  intro after hleads phrase hphrase
  simp only [parse, Machine.parse, Run.andThen, root_eq_run] at hleads
  have hhanded := Machine.mem_handed.mpr hphrase
  cases hfinal : (grammar.rootProcedure steps).run setting (machine.start setting) with
  | finished matched left =>
      rw [hfinal] at hleads
      rw [Machine.handed_conclude hleads] at hhanded
      exact hrun left (by rw [hfinal]; rfl) phrase hhanded
  | faulted cause left =>
      rw [hfinal] at hleads
      obtain rfl := hleads
      exact hrun left (by rw [hfinal]; rfl) phrase hhanded
  | exhausted =>
      rw [hfinal] at hleads
      contradiction

/-- The action of a sum of two terms is given their phrases and the sign between them. -/
theorem texts_of_accepted_phrases_compose_sums :
    let counting : Action Nat := fun _ phrase => .ok (some phrase.children.length)
    let setting : Setting Nat :=
      ⟨.ofText "x+x", Semantics.empty.on "sum" counting, ⟨1, by decide⟩⟩
    let outcome := sums.parse setting 20 (sums.machine setting)
    sums.isComplete = true ∧ sums.tablesInUse.Nodup ∧
      ∃ after phrase, outcome.LeadsTo after ∧ .action phrase ∈ after.journal.entries ∧
        phrase.children.length = 3 ∧ phrase.TextsCompose setting.source := by
  intro counting setting outcome
  have hgrammar : sums.isComplete = true := by decide
  have hexclusive : sums.tablesInUse.Nodup := by decide
  have hgiven : outcome.left?.bind (·.handed.head?.map (·.children.length)) = some 3 := by
    decide +kernel
  obtain ⟨after, hleft, hhanded⟩ := Option.bind_eq_some_iff.mp hgiven
  obtain ⟨phrase, hphrase, hlength⟩ := Option.map_eq_some_iff.mp hhanded
  have hleads : outcome.LeadsTo after := by
    cases houtcome : outcome with
    | finished result left | faulted cause left =>
        rw [houtcome] at hleft
        exact Option.some.inj hleft
    | exhausted =>
        rw [houtcome] at hleft
        contradiction
  have hentry := Machine.mem_handed.mp (List.mem_of_head? hphrase)
  exact ⟨hgrammar, hexclusive, after, phrase, hleads, hentry, hlength,
    (texts_of_accepted_phrases_compose sums setting hgrammar hexclusive
      (machine_hasTablesOf sums setting) 20).2 after hleads phrase hentry⟩

end Grammar

end Packrat
