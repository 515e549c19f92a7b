/-
  CrossRef.Proofs.Syntax.Operands

  An operand is a construct and never a bare token. This can be seen at the
  end of every rule, whatever the rules that it comes back to give, so it needs
  no induction on the depth of the grammar.
-/
import CrossRef.Proofs.Syntax.Spelling

namespace CrossRef.Syntax

open Read

/-- Every result is a construct. -/
def GivesConstruct (p : Read Part) : Prop := ∀ s, Reads s p fun _ q => q.IsNamed

variable {G : Rules} {primary : Read Part}

/-! ## Atoms -/

theorem givesConstruct_leaf {k : Kind} (hk : k.isNamed = true)
    (accept : TokenKind → String → Bool) : GivesConstruct (leaf k accept) := by
  intro s
  exact reads_leaf_node.mono fun _ _ h => Part.isNamed_of_isKind h.1 hk

theorem givesConstruct_strings : GivesConstruct strings := by
  intro s
  have hstring : Reads s (many1 (leaf .string fun kind _ => kind == .string))
      fun _ ps => ∀ q ∈ ps.head?, q.IsNamed := by
    refine .bind (givesConstruct_leaf rfl _ s) fun t first hfirst => .after fun u more => .done ?_
    rintro q ⟨⟩
    exact hfirst
  refine .bind hstring fun t ps hps => ?_
  split
  · exact .done (hps _ rfl)
  · exact .done (Part.isNamed_build rfl _)

theorem givesConstruct_nameOrConstant : GivesConstruct nameOrConstant := by
  intro s
  refine .after fun t _ => ?_
  split
  · exact givesConstruct_leaf rfl _ t
  · exact givesConstruct_leaf rfl _ t
  · exact givesConstruct_leaf rfl _ t
  · exact givesConstruct_leaf rfl _ t

theorem givesConstruct_number : GivesConstruct number := by
  intro s
  exact .or (givesConstruct_leaf rfl _ s) (givesConstruct_leaf rfl _ s)

theorem givesConstruct_parenthesized : GivesConstruct (parenthesized G primary) := by
  intro s
  refine .after fun t opening => .after fun _ _ => .ite ?_ ?_
  · exact .after fun _ _ => .done (Part.isNamed_build rfl _)
  refine .after fun u first => .after fun _ _ => .ite ?_ ?_
  · exact .after fun _ _ => .after fun _ _ => .done (Part.isNamed_build rfl _)
  refine .after fun _ _ => .ite ?_ ?_
  · exact .after fun _ _ => .done (Part.isNamed_build rfl _)
  · exact .after fun _ _ => .after fun _ _ => .after fun _ _ => .done (Part.isNamed_build rfl _)

/-- The end of a display, which begins with an opening and the first member. -/
theorem givesConstruct_display {k : Kind} (hk : k.isNamed = true) (closing : String)
    (item : Read Part) (ps : List Part) :
    GivesConstruct (do
      let comma ← perhaps (operator ",")
      let more ← if comma.isEmpty then pure [] else commaSeparatedOrNone item
      return .build k (ps ++ comma ++ more ++ [← operator closing])) := by
  intro s
  refine .after fun t comma => .ite ?_ ?_
  · exact .after fun _ _ => .after fun _ _ => .done (Part.isNamed_build hk _)
  · exact .after fun _ _ => .after fun _ _ => .done (Part.isNamed_build hk _)

theorem givesConstruct_listDisplay : GivesConstruct (listDisplay G primary) := by
  intro s
  refine .after fun t opening => .after fun _ _ => .ite ?_ ?_
  · exact .after fun _ _ => .done (Part.isNamed_build rfl _)
  refine .after fun u first => .after fun v _ => .ite ?_ ?_
  · exact .after fun _ _ => .after fun _ _ => .done (Part.isNamed_build rfl _)
  · exact givesConstruct_display rfl "]" _ _ v

theorem givesConstruct_braceDisplay : GivesConstruct (braceDisplay G primary) := by
  intro s
  refine .after fun t opening => .after fun _ _ => .ite ?_ (.or ?_ ?_)
  · exact .after fun _ _ => .done (Part.isNamed_build rfl _)
  -- entries
  · refine .after fun u first => .after fun v _ => .ite ?_ ?_
    · exact .after fun _ _ => .after fun _ _ => .done (Part.isNamed_build rfl _)
    · exact givesConstruct_display rfl "\x7d" _ _ v
  -- members
  · refine .after fun u first => .after fun v _ => .ite ?_ ?_
    · exact .after fun _ _ => .after fun _ _ => .done (Part.isNamed_build rfl _)
    · exact givesConstruct_display rfl "\x7d" _ _ v

theorem givesConstruct_atom : GivesConstruct (atom G primary) := by
  intro s
  refine .after fun t _ => ?_
  split
  · exact givesConstruct_nameOrConstant t
  · exact givesConstruct_strings t
  · exact givesConstruct_number t
  · exact givesConstruct_number t
  · exact givesConstruct_parenthesized t
  · exact givesConstruct_listDisplay t
  · exact givesConstruct_braceDisplay t
  · exact givesConstruct_leaf rfl _ t
  · exact .after fun _ _ => .after fun _ _ => .done (Part.isNamed_build rfl _)
  · exact .fail

/-! ## Operators -/

theorem givesConstruct_primary : GivesConstruct (Syntax.primary G) := by
  intro s
  refine .bind (givesConstruct_atom s) fun t first hfirst => ?_
  refine reads_extend_of hfirst fun _ _ => .or ?_ (.or ?_ ?_)
  · exact .after fun _ _ => .after fun _ _ => .done (Part.isNamed_build rfl _)
  · exact .after fun _ _ => .after fun _ _ => .after fun _ _ => .done (Part.isNamed_build rfl _)
  · exact .after fun _ _ => .done (Part.isNamed_build rfl _)

theorem givesConstruct_unary : GivesConstruct (unary G) := by
  intro s
  have hsigned : GivesConstruct (do
      let sign ← leaf .token fun _ _ => true
      return .build .unaryOperator
        [sign.as .operator, (← G (.binary powerLevel)).as .argument]) := by
    intro s
    exact .after fun _ _ => .after fun _ _ => .done (Part.isNamed_build rfl _)
  refine .after fun t _ => ?_
  split
  · exact hsigned t
  · exact hsigned t
  · exact hsigned t
  · refine .or ?_ (givesConstruct_primary t)
    exact .after fun _ _ => .after fun _ _ => .done (Part.isNamed_build rfl _)
  · exact givesConstruct_primary t

theorem givesConstruct_binary (level : Nat) : GivesConstruct (binary G level) := by
  intro s
  refine .ite (givesConstruct_primary s) ?_
  refine .bind (givesConstruct_unary s) fun t first hfirst => ?_
  refine reads_extend_of hfirst fun _ _ => .after fun _ _ => ?_
  split
  · split
    · refine .ite .fail ?_
      exact .after fun _ _ => .after fun _ _ => .done (Part.isNamed_build rfl _)
    · exact .fail
  · exact .fail

theorem givesConstruct_comparison : GivesConstruct (comparison G) := by
  intro s
  refine .bind (givesConstruct_binary 14 s) fun t first hfirst => .after fun _ _ => .ite ?_ ?_
  · exact .done hfirst
  · exact .done (Part.isNamed_build rfl _)

/-! ## Operands -/

theorem givesConstruct_negation (inClause : Bool) : GivesConstruct (negation G inClause) := by
  intro s
  refine .after fun t _ => ?_
  split
  · exact .after fun _ _ => .after fun _ _ => .done (Part.isNamed_build rfl _)
  -- a lambda
  · exact .after fun _ _ => .after fun _ _ => .after fun _ _ => .after fun _ _ =>
      .done (Part.isNamed_build rfl _)
  · refine .after fun u _ => .ite ?_ (givesConstruct_comparison u)
    exact .after fun _ _ => .after fun _ _ => .after fun _ _ => .done (Part.isNamed_build rfl _)
  · exact givesConstruct_comparison t

theorem givesConstruct_joined (word : String) {operand : Read Part}
    (hoperand : GivesConstruct operand) : GivesConstruct (joined word operand) := by
  intro s
  refine .bind (hoperand s) fun t first hfirst => reads_extend_of hfirst fun _ _ => ?_
  exact .after fun _ _ => .after fun _ _ => .done (Part.isNamed_build rfl _)

theorem givesConstruct_disjunction (inClause : Bool) :
    GivesConstruct (disjunction G inClause) :=
  givesConstruct_joined "or" (givesConstruct_joined "and" (givesConstruct_negation inClause))

end CrossRef.Syntax
