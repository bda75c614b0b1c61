import Mathlib.Data.List.Nodup
import Packrat.Proofs.Evaluation

/-!
# Who uses which table

A table is used by the rule that is memoized in it, or by an inner expression.  In a
grammar where no table is used twice, each table has one user.
-/

namespace Packrat

/-- The expression that opens its phrase through a table, beside that table. -/
def Opening.user (opening : Opening) (expression : Expression) :
    List (Nat × Expression) :=
  opening.table?.toList.map fun table => (table, expression)

namespace Expression

mutual

/-- The tables that an expression uses itself, each with the part that opens its phrase
through the table; what its rules use is left out. -/
def users : Expression → List (Nat × Expression)
  | .terminal _ | .ahead _ | .aheadNot _ | .rule _ => []
  | .choice alternatives => usersOfAll alternatives
  | .optional body | .star body | .plus body => users body
  | .sequence opening parts => opening.user (.sequence opening parts) ++ usersOfAll parts
  | .andPredicate opening argument =>
      opening.user (.andPredicate opening argument) ++ users argument
  | .notPredicate opening argument =>
      opening.user (.notPredicate opening argument) ++ users argument

def usersOfAll : List Expression → List (Nat × Expression)
  | [] => []
  | expression :: rest => users expression ++ usersOfAll rest

end

theorem users_subset_usersOfAll {expression : Expression} {expressions : List Expression}
    (hmember : expression ∈ expressions) : expression.users ⊆ usersOfAll expressions := by
  induction expressions with
  | nil => simp at hmember
  | cons first rest ih =>
      intro user huser
      rw [usersOfAll, List.mem_append]
      rcases List.mem_cons.mp hmember with rfl | hrest
      · exact .inl huser
      · exact .inr (ih hrest huser)

end Expression

namespace Grammar

def ruleUsers (rule : Rule) : List (Nat × Expression) :=
  rule.table.toList.map (fun table => (table, .rule rule.name)) ++
    Expression.usersOfAll rule.body

/-- Every use of a table in the grammar. -/
def users (grammar : Grammar) : List (Nat × Expression) :=
  grammar.rules.flatMap ruleUsers

/-- The tables in use, each as often as it is used. -/
def tablesInUse (grammar : Grammar) : List Nat :=
  grammar.users.map Prod.fst

variable {grammar : Grammar}

theorem ruleUsers_subset_users {name : String} {rule : Rule}
    (hrule : grammar.rule? name = some rule) : ruleUsers rule ⊆ grammar.users := by
  intro user huser
  exact List.mem_flatMap.mpr ⟨rule, List.mem_of_find?_eq_some hrule, huser⟩

/-- Evaluating an expression takes to its own tables and to those of the rules. -/
theorem users_parts_subset {expression part : Expression}
    (hexpression : expression.users ⊆ grammar.users)
    (hpart : part ∈ grammar.parts expression) : part.users ⊆ grammar.users := by
  cases expression with
  | terminal | ahead | aheadNot => simp [parts] at hpart
  | rule name =>
      cases hrule : grammar.rule? name with
      | none => simp [parts, hrule] at hpart
      | some rule =>
          simp only [parts, hrule, Option.map_some, Option.getD_some] at hpart
          intro user huser
          apply ruleUsers_subset_users hrule
          exact List.mem_append_right _ (Expression.users_subset_usersOfAll hpart huser)
  | choice alternatives =>
      intro user huser
      exact hexpression (Expression.users_subset_usersOfAll hpart huser)
  | optional body =>
      obtain rfl := List.mem_singleton.mp hpart
      exact hexpression
  | star body | plus body =>
      simp only [parts, List.mem_cons, List.not_mem_nil, or_false] at hpart
      rcases hpart with rfl | rfl <;> exact hexpression
  | sequence opening items =>
      intro user huser
      apply hexpression
      exact List.mem_append_right _ (Expression.users_subset_usersOfAll hpart huser)
  | andPredicate opening argument | notPredicate opening argument =>
      obtain rfl := List.mem_singleton.mp hpart
      intro user huser
      exact hexpression (List.mem_append_right _ huser)

theorem mem_users_of_table {expression : Expression} {index : Nat}
    (hexpression : expression.users ⊆ grammar.users)
    (htable : grammar.table? expression = some index) :
    (index, expression) ∈ grammar.users := by
  cases expression with
  | rule name =>
      cases hrule : grammar.rule? name with
      | none => simp [table?, hrule] at htable
      | some rule =>
          have hmemoized : rule.table = some index := by
            simpa [table?, hrule] using htable
          have hname : rule.name = name := by
            simpa using List.find?_some hrule
          apply ruleUsers_subset_users hrule
          apply List.mem_append_left
          simp [hmemoized, hname]
  | sequence opening items =>
      apply hexpression
      apply List.mem_append_left
      simp only [table?] at htable
      simp [Opening.user, htable]
  | andPredicate opening argument | notPredicate opening argument =>
      apply hexpression
      apply List.mem_append_left
      simp only [table?] at htable
      simp [Opening.user, htable]
  | _ => simp [table?] at htable

/-- A table that is used once has one user. -/
theorem user_unique (hexclusive : grammar.tablesInUse.Nodup) {index : Nat}
    {first second : Expression} (hfirst : (index, first) ∈ grammar.users)
    (hsecond : (index, second) ∈ grammar.users) : first = second :=
  congrArg Prod.snd (List.inj_on_of_nodup_map hexclusive hfirst hsecond rfl)

end Grammar

/-! ## Tables that exist -/

namespace Grammar

/-- The grammar has every table that is used. -/
def Provides (grammar : Grammar) (users : List (Nat × Expression)) : Prop :=
  ∀ user ∈ users, user.1 < grammar.tables.length

instance (grammar : Grammar) (users : List (Nat × Expression)) :
    Decidable (grammar.Provides users) :=
  inferInstanceAs (Decidable (∀ user ∈ users, user.1 < grammar.tables.length))

variable {grammar : Grammar}

theorem Provides.mono {users fewer : List (Nat × Expression)}
    (hprovides : grammar.Provides users) (hfewer : fewer ⊆ users) :
    grammar.Provides fewer :=
  fun user huser => hprovides user (hfewer huser)

theorem exists_innerLabel {opening : Opening} {expression : Expression}
    (hprovides : grammar.Provides (opening.user expression)) :
    ∃ label, grammar.innerLabel? opening = some label := by
  cases opening with
  | plain diagnosis => exact ⟨_, rfl⟩
  | memoized table =>
      have htable : table < grammar.tables.length :=
        hprovides (table, expression) (List.mem_singleton.mpr rfl)
      rw [innerLabel?, List.getElem?_eq_getElem htable]
      exact ⟨_, rfl⟩

theorem exists_ruleLabel {rule : Rule} (hprovides : grammar.Provides (ruleUsers rule)) :
    ∃ label, grammar.ruleLabel? rule = some label := by
  rw [ruleLabel?]
  cases hrule : rule.table with
  | none => exact ⟨_, rfl⟩
  | some table =>
      have huser : (table, .rule rule.name) ∈ ruleUsers rule :=
        List.mem_append_left _ (by simp [hrule])
      have htable : table < grammar.tables.length := hprovides _ huser
      exact ⟨_, List.getElem?_eq_getElem htable⟩

end Grammar

end Packrat
