/-
  CrossRef.Proofs.Syntax.Expression

  The rules for expressions, targets, parameters and annotations spell what
  they take, if the rules that they come back to do (`Rules.Spell`). Every
  proof follows its rule: the steps in the order of reading, and at the end
  the pieces in the order of the construct.
-/
import CrossRef.Proofs.Syntax.Operands

namespace CrossRef.Syntax

open Read

/-- Every recursive rule spells what it takes, an operand is a construct, and what
    stands behind a colon is a block. -/
structure Rules.Spell (G : Rules) : Prop where
  spells : ∀ r, Spells (G r)
  operand : ∀ inClause, GivesConstruct (G (.disjunction inClause))
  suite : ∀ s, Reads s (G .suite) fun _ p => p.isKind .block = true

/-! ## Targets -/

section

variable {s t u : List Lexeme} {p : Part} {ps : List Part}

theorem Spells.as {p : Read Part} (hp : Spells p) (f : Field) :
    Spells (do return (← p).as f) := by
  intro s
  refine .bind (hp s) fun t a ha => ?_
  exact .done ha.as

theorem Spelled.oneOrList {k : Kind} (hk : ∀ ps, Shape k ps) (h : Spelled s t ps) :
    Spelled s t [oneOrList k ps] := by
  unfold Syntax.oneOrList
  split
  · exact h
  · exact .build (hk _) h

theorem Spelled.asExpressions (h : Spelled s t ps) : Spelled s t [asExpressions ps] :=
  h.oneOrList fun _ => trivial

/-- Reading a piece as a target takes nothing. -/
theorem reads_asTarget (h : Spelled s t [p]) :
    Reads u (asTarget p) fun v q => u = v ∧ Spelled s t [q] := by
  unfold asTarget
  split
  · exact .done ⟨rfl, h⟩
  · split
    · exact .done ⟨rfl, .target ‹_› ‹_› h⟩
    · exact .fail

theorem Spelled.asTarget (h : Spelled s t [p]) :
    Reads t (asTarget p) fun u q => Spelled s u [q] := by
  refine (reads_asTarget h).mono ?_
  rintro u q ⟨rfl, hq⟩
  exact hq

theorem reads_mapM_asTarget (h : Spelled s t ps) :
    Reads u (ps.mapM Syntax.asTarget) fun v qs => u = v ∧ Spelled s t qs := by
  induction ps generalizing s with
  | nil => exact .done ⟨rfl, h⟩
  | cons p ps ih =>
    obtain ⟨w, hp, hps⟩ := h.split (List.singleton_append (x := p) (l := ps)).symm
    rw [List.mapM_cons]
    refine .bind (reads_asTarget hp) ?_
    rintro _ q ⟨rfl, hq⟩
    refine .bind (ih hps) ?_
    rintro _ qs ⟨rfl, hqs⟩
    exact .done ⟨rfl, .cons hq hqs⟩

theorem Spelled.asTargets (h : Spelled s t ps) :
    Reads t (asTargets ps) fun u q => Spelled s u [q] := by
  refine .bind (reads_mapM_asTarget h) ?_
  rintro _ qs ⟨rfl, hqs⟩
  exact .done (hqs.oneOrList fun _ => trivial)

end

section

variable {G : Rules} (hG : G.Spell)
include hG

/-! ## Elements -/

theorem spells_element : Spells (element G) := by
  intro s
  refine .look (reads_atOperator "*") fun _ => .ite ?_ (hG.spells _ s)
  refine .bind (spells_operator "*" s) fun t star hstar => ?_
  refine .bind (hG.spells _ t) fun u value hvalue => ?_
  exact .done (.build trivial (.cons hstar (.cons hvalue .nil)))

theorem spells_yieldExpression : Spells (yieldExpression G) := by
  intro s
  refine .bind (spells_keyword "yield" s) fun t word hword => ?_
  have hsource : SpellsAll (do return [← keyword "from", ← G (.expression false)]) := by
    intro s
    refine .bind (spells_keyword "from" s) fun t source hsource => ?_
    refine .bind (hG.spells _ t) fun u value hvalue => ?_
    exact .done (.cons hsource (.cons hvalue .nil))
  have hvalues : SpellsAll (do return [asExpressions (← commaSeparated (element G))]) := by
    intro s
    refine .bind (spellsAll_commaSeparated (spells_element hG) s) fun t values hvalues => ?_
    exact .done hvalues.asExpressions
  refine .bind (.or (hsource t) (.or (hvalues t) (.done .nil))) fun u body hbody => ?_
  exact .done (.build trivial (.cons hword hbody))

theorem spells_bracketed : Spells (bracketed G) := by
  intro s
  exact .or (spells_yieldExpression hG s) (spells_element hG s)

theorem spells_ifClause (inClause : Bool) : Spells (ifClause G inClause) := by
  intro s
  refine .bind (spells_keyword "if" s) fun t word hword => ?_
  refine .bind (hG.spells _ t) fun u condition hcondition => ?_
  exact .done (.build trivial (.cons hword (.cons hcondition .nil)))

end

/-! ## Atoms and what may follow them -/

theorem spells_strings : Spells strings := by
  intro s
  have hstring : Spells (leaf .string fun kind _ => kind == .string) :=
    spells_leaf .string fun _ => trivial
  refine .bind (spellsAll_many1 hstring s) fun t parts hparts => ?_
  split
  · exact .done hparts
  · exact .done (.build trivial hparts)

theorem spells_number : Spells number := by
  intro s
  refine .or ?_ ?_
  · exact spells_leaf .integer (fun _ => trivial) s
  · exact spells_leaf .float (fun _ => trivial) s

theorem spells_nameOrConstant : Spells nameOrConstant := by
  intro s
  refine .look reads_peek fun _ => ?_
  split
  · exact spells_leaf .trueConstant (fun _ => trivial) s
  · exact spells_leaf .falseConstant (fun _ => trivial) s
  · exact spells_leaf .noneConstant (fun _ => trivial) s
  · exact spells_identifier s

theorem reads_attributeOf {s t : List Lexeme} {object : Part} (hobject : Spelled s t [object]) :
    Reads t (attributeOf object) fun u p => Spelled s u [p] := by
  refine .bind (spells_operator "." t) fun u dot hdot => ?_
  refine .bind (spells_anyName u) fun v name hname => ?_
  exact .done (.build trivial (.cons hobject.as (.cons hdot (.cons hname.as .nil))))

theorem reads_atClause {s : List Lexeme} : Reads s atClause fun t _ => s = t := by
  refine .look (reads_atKeyword "for") fun _ => ?_
  refine .look (reads_atKeyword "async") fun _ => ?_
  exact .look reads_peekSecond fun _ => .done rfl

section

variable {primary : Read Part} (hprimary : Spells primary)
include hprimary

theorem spells_targetWith : Spells (targetWith primary) := by
  intro s
  refine .look (reads_atOperator "*") fun _ => .ite ?_ ?_
  · refine .bind (spells_operator "*" s) fun t star hstar => ?_
    refine .bind (hprimary t) fun u value hvalue => ?_
    refine .bind hvalue.asTarget fun v target htarget => ?_
    exact .done (.build trivial (.cons hstar (.cons htarget .nil)))
  · refine .bind (hprimary s) fun t value hvalue => ?_
    exact hvalue.asTarget

theorem spells_targets : Spells (targets primary) := by
  intro s
  refine .bind (spellsAll_commaSeparated (spells_targetWith hprimary) s) fun t ps hps => ?_
  exact .done (hps.oneOrList fun _ => trivial)

variable {G : Rules} (hG : G.Spell)
include hG

theorem spells_forInClause : Spells (forInClause G primary) := by
  intro s
  refine .bind (reads_perhaps_keyword "async") fun t async hasync => ?_
  refine .bind ((spells_keyword "for" t).and (reads_keyword_bare "for")) fun u word hword => ?_
  refine .bind (spells_targets hprimary u) fun v left hleft => ?_
  refine .bind ((spells_keyword "in" v).and (reads_keyword_bare "in")) fun w inWord hin => ?_
  have hright : Reads w (commaSeparated (return (← G (.expression true)).as .right))
      fun _ ps => ∀ p ∈ ps, p.IsBare ∨ ∃ q : Part, p = q.as .right :=
    reads_commaSeparated_of (fun _ => reads_as.mono fun _ _ => .inr)
      fun _ => (reads_operator_bare ",").mono fun _ _ => .inl
  refine .bind ((spellsAll_commaSeparated ((hG.spells _).as _) w).and hright)
    fun x sources hsources => ?_
  have hfront : TakeRoles [.left] (async ++ [word, left.as .left, inWord]) :=
    .append (.of_bare hasync.2) (.bare hword.2 (.role (.bare hin.2 .nil)))
  exact .done (.build ⟨_, sources, rfl, hfront, hsources.2⟩ (.append (.append hasync.1
    (.cons hword.1 (.cons hleft.as (.cons hin.1 .nil)))) hsources.1))

theorem spellsAll_clauses : SpellsAll (clauses G primary) := by
  intro s
  refine .bind (spells_forInClause hprimary hG s) fun t first hfirst => ?_
  have hclause : Spells (forInClause G primary <|> ifClause G true) := fun s =>
    .or (spells_forInClause hprimary hG s) (spells_ifClause hG true s)
  refine .bind (spellsAll_many hclause t) fun u more hmore => ?_
  exact .done (.cons hfirst hmore)

/-- The end of a comprehension, which begins with an opening and the body. -/
theorem reads_comprehension (k : Kind) (hk : ∀ ps, Shape k ps) (closing : String)
    {s t : List Lexeme} {ps : List Part} (h : Spelled s t ps) :
    Reads t (do
      let cs ← clauses G primary
      return .build k (ps ++ cs ++ [← operator closing])) fun u p => Spelled s u [p] := by
  refine .bind (spellsAll_clauses hprimary hG t) fun u cs hcs => ?_
  refine .bind (spells_operator closing u) fun v closing hclosing => ?_
  exact .done (.build (hk _) (.append (.append h hcs) (.cons hclosing .nil)))

omit hprimary hG in
/-- The end of a display, which begins with an opening and the first member. -/
theorem reads_display (k : Kind) (hk : ∀ ps, Shape k ps) (closing : String) {item : Read Part}
    (hitem : Spells item) {s t : List Lexeme} {ps : List Part} (h : Spelled s t ps) :
    Reads t (do
      let comma ← perhaps (operator ",")
      let more ← if comma.isEmpty then pure [] else commaSeparatedOrNone item
      return .build k (ps ++ comma ++ more ++ [← operator closing]))
      fun u p => Spelled s u [p] := by
  refine .bind (spellsAll_perhaps (spells_operator ",") t) fun u comma hcomma => ?_
  refine .unless (spellsAll_commaSeparatedOrNone hitem) fun v more hmore => ?_
  refine .bind (spells_operator closing v) fun w closing hclosing => ?_
  exact .done (.build (hk _)
    (.append (.append (.append h hcomma) hmore) (.cons hclosing .nil)))

theorem spells_parenthesized : Spells (parenthesized G primary) := by
  intro s
  refine .bind (spells_operator "(" s) fun t opening hopening => ?_
  refine .look (reads_atOperator ")") fun _ => .ite ?_ ?_
  · refine .bind (spells_operator ")" t) fun u closing hclosing => ?_
    exact .done (.build trivial (.cons hopening (.cons hclosing .nil)))
  refine .bind (spells_bracketed hG t) fun u first hfirst => ?_
  refine .look reads_atClause fun _ => .ite ?_ ?_
  · have hbody : Spelled s u [opening, first.as .body] := .cons hopening (.cons hfirst.as .nil)
    exact reads_comprehension hprimary hG .generatorExpression (fun _ => trivial) ")" hbody
  refine .look (reads_atOperator ")") fun _ => .ite ?_ ?_
  · refine .bind (spells_operator ")" u) fun v closing hclosing => ?_
    exact .done (.build trivial (.cons hopening (.cons hfirst (.cons hclosing .nil))))
  refine .bind (spells_operator "," u) fun v comma hcomma => ?_
  refine .bind (spellsAll_commaSeparatedOrNone (spells_bracketed hG) v) fun w more hmore => ?_
  refine .bind (spells_operator ")" w) fun x closing hclosing => ?_
  exact .done (.build trivial (.append (.append
    (.cons hopening (.cons hfirst (.cons hcomma .nil))) hmore) (.cons hclosing .nil)))

theorem spells_listDisplay : Spells (listDisplay G primary) := by
  intro s
  refine .bind (spells_operator "[" s) fun t opening hopening => ?_
  refine .look (reads_atOperator "]") fun _ => .ite ?_ ?_
  · refine .bind (spells_operator "]" t) fun u closing hclosing => ?_
    exact .done (.build trivial (.cons hopening (.cons hclosing .nil)))
  refine .bind (spells_bracketed hG t) fun u first hfirst => ?_
  refine .look reads_atClause fun _ => .ite ?_ ?_
  · have hbody : Spelled s u [opening, first.as .body] := .cons hopening (.cons hfirst.as .nil)
    exact reads_comprehension hprimary hG .listComprehension (fun _ => trivial) "]" hbody
  have hfront : Spelled s u [opening, first] := .cons hopening (.cons hfirst .nil)
  exact reads_display .list (fun _ => trivial) "]" (spells_bracketed hG) hfront

omit hprimary in
theorem spells_entry : Spells (entry G) := by
  intro s
  refine .look (reads_atOperator "**") fun _ => .ite ?_ ?_
  · refine .bind (spells_operator "**" s) fun t stars hstars => ?_
    refine .bind (hG.spells _ t) fun u value hvalue => ?_
    exact .done (.build trivial (.cons hstars (.cons hvalue .nil)))
  refine .bind (hG.spells _ s) fun t key hkey => ?_
  refine .bind (spells_operator ":" t) fun u colon hcolon => ?_
  refine .bind (hG.spells _ u) fun v value hvalue => ?_
  exact .done (.build trivial (.cons hkey.as (.cons hcolon (.cons hvalue.as .nil))))

theorem spells_braceDisplay : Spells (braceDisplay G primary) := by
  intro s
  refine .bind (spells_operator "\x7b" s) fun t opening hopening => ?_
  refine .look (reads_atOperator "\x7d") fun _ => .ite ?_ (.or ?_ ?_)
  · refine .bind (spells_operator "\x7d" t) fun u closing hclosing => ?_
    exact .done (.build trivial (.cons hopening (.cons hclosing .nil)))
  -- entries
  · refine .bind (spells_entry hG t) fun u first hfirst => ?_
    refine .look reads_atClause fun _ => .ite ?_ ?_
    · have hbody : Spelled s u [opening, first.as .body] := .cons hopening (.cons hfirst.as .nil)
      exact reads_comprehension hprimary hG .dictionaryComprehension (fun _ => trivial) "\x7d" hbody
    have hfront : Spelled s u [opening, first] := .cons hopening (.cons hfirst .nil)
    exact reads_display .dictionary (fun _ => trivial) "\x7d" (spells_entry hG) hfront
  -- members
  · refine .bind (spells_bracketed hG t) fun u first hfirst => ?_
    refine .look reads_atClause fun _ => .ite ?_ ?_
    · have hbody : Spelled s u [opening, first.as .body] := .cons hopening (.cons hfirst.as .nil)
      exact reads_comprehension hprimary hG .setComprehension (fun _ => trivial) "\x7d" hbody
    have hfront : Spelled s u [opening, first] := .cons hopening (.cons hfirst .nil)
    exact reads_display .set (fun _ => trivial) "\x7d" (spells_bracketed hG) hfront

omit hprimary in
theorem spells_subscriptItem : Spells (subscriptItem G) := by
  intro s
  have hbound := spellsAll_perhaps (hG.spells (.expression false))
  refine .or ?_ (spells_element hG s)
  refine .bind (hbound s) fun t lower hlower => ?_
  refine .bind (spells_operator ":" t) fun u colon hcolon => ?_
  refine .bind (hbound u) fun v upper hupper => ?_
  refine .bind (spellsAll_perhaps (spells_operator ":") v) fun w second hsecond => ?_
  refine .unless hbound fun x step hstep => ?_
  exact .done (.build trivial (.append (.append (.append (.append hlower
    (.cons hcolon .nil)) hupper) hsecond) hstep))

omit hprimary in
theorem reads_subscriptOf {s t : List Lexeme} {value : Part} (hvalue : Spelled s t [value]) :
    Reads t (subscriptOf G value) fun u p => Spelled s u [p] := by
  refine .bind (spells_operator "[" t) fun u opening hopening => ?_
  have hitem := (spells_subscriptItem hG).as .subscript
  refine .bind (spellsAll_commaSeparated hitem u) fun v items hitems => ?_
  refine .bind (spells_operator "]" v) fun w closing hclosing => ?_
  exact .done (.build trivial (.append (.append
    (.cons hvalue.as (.cons hopening .nil)) hitems) (.cons hclosing .nil)))

omit hprimary in
theorem spells_argument : Spells (argument G) := by
  intro s
  refine .look (reads_atOperator "**") fun _ => .ite ?_ ?_
  · refine .bind (spells_operator "**" s) fun t stars hstars => ?_
    refine .bind (hG.spells _ t) fun u value hvalue => ?_
    exact .done (.build trivial (.cons hstars (.cons hvalue .nil)))
  refine .look reads_peekSecond fun _ => .ite ?_ (spells_element hG s)
  refine .bind (spells_identifier s) fun t name hname => ?_
  refine .bind (spells_operator "=" t) fun u equals hequals => ?_
  refine .bind (hG.spells _ u) fun v value hvalue => ?_
  exact .done (.build trivial (.cons hname.as (.cons hequals (.cons hvalue.as .nil))))

omit hprimary in
theorem spells_argumentList : Spells (argumentList G) := by
  intro s
  refine .bind (spells_operator "(" s) fun t opening hopening => ?_
  have harguments := spellsAll_commaSeparatedOrNone (spells_argument hG)
  refine .bind (harguments t) fun u arguments harguments => ?_
  refine .bind (spells_operator ")" u) fun v closing hclosing => ?_
  exact .done (.build trivial (.append (.append
    (.cons hopening .nil) harguments) (.cons hclosing .nil)))

theorem spells_generatorArgument : Spells (generatorArgument G primary) := by
  intro s
  refine .bind (spells_operator "(" s) fun t opening hopening => ?_
  refine .bind (hG.spells _ t) fun u first hfirst => ?_
  have hbody : Spelled s u [opening, first.as .body] := .cons hopening (.cons hfirst.as .nil)
  exact reads_comprehension hprimary hG .generatorExpression (fun _ => trivial) ")" hbody

theorem reads_callOf {s t : List Lexeme} {function : Part} (hfunction : Spelled s t [function]) :
    Reads t (callOf G primary function) fun u p => Spelled s u [p] := by
  have harguments : Spells (argumentList G <|> generatorArgument G primary) := fun s =>
    .or (spells_argumentList hG s) (spells_generatorArgument hprimary hG s)
  refine .bind (harguments t) fun u arguments harguments => ?_
  exact .done (.build ⟨function, arguments, rfl⟩ (.cons hfunction.as (.cons harguments.as .nil)))

/-! ## Primaries -/

theorem spells_atom : Spells (atom G primary) := by
  intro s
  refine .look reads_peek fun _ => ?_
  split
  · exact spells_nameOrConstant s
  · exact spells_strings s
  · exact spells_number s
  · exact spells_number s
  · exact spells_parenthesized hprimary hG s
  · exact spells_listDisplay hprimary hG s
  · exact spells_braceDisplay hprimary hG s
  · exact spells_leaf .ellipsis (fun _ => trivial) s
  · refine .bind (spells_operator "*" s) fun t star hstar => ?_
    refine .bind (hG.spells _ t) fun u value hvalue => ?_
    exact .done (.build trivial (.cons hstar (.cons hvalue .nil)))
  · exact .fail

end

section

variable {G : Rules} (hG : G.Spell)
include hG

theorem spells_primaryRule : Spells (primaryRule G) := hG.spells _

theorem spells_primary : Spells (primary G) := by
  intro s
  have hprimary := spells_primaryRule hG
  refine .bind (spells_atom hprimary hG s) fun t first hfirst => ?_
  refine reads_extend hfirst fun u p hp => .or (reads_attributeOf hp) (.or ?_ ?_)
  · exact reads_subscriptOf hG hp
  · exact reads_callOf hprimary hG hp

/-! ## Operators -/

theorem spells_unary : Spells (unary G) := by
  intro s
  refine .look reads_peek fun _ => ?_
  have hsigned : Spells (do
      let sign ← leaf .token fun _ _ => true
      return .build .unaryOperator
        [sign.as .operator, (← G (.binary powerLevel)).as .argument]) := by
    intro s
    refine .bind (spells_leaf .token (fun _ => trivial) s) fun t sign hsign => ?_
    refine .bind (hG.spells _ t) fun u argument hargument => ?_
    exact .done (.build trivial (.cons hsign.as (.cons hargument.as .nil)))
  split
  · exact hsigned s
  · exact hsigned s
  · exact hsigned s
  · refine .or ?_ (spells_primary hG s)
    refine .bind (spells_keyword "await" s) fun t word hword => ?_
    refine .bind (hG.spells _ t) fun u value hvalue => ?_
    exact .done (.build trivial (.cons hword (.cons hvalue .nil)))
  · exact spells_primary hG s

theorem spells_binary (level : Nat) : Spells (binary G level) := by
  intro s
  refine .ite (spells_primary hG s) ?_
  refine .bind (spells_unary hG s) fun t first hfirst => ?_
  refine reads_extend hfirst fun u left hleft => ?_
  refine .look reads_peek fun _ => ?_
  split
  · split
    · refine .ite .fail ?_
      refine .bind (spells_operator _ u) fun v sign hsign => ?_
      refine .bind (hG.spells _ v) fun w right hright => ?_
      exact .done (.build trivial (.cons hleft.as (.cons hsign.as (.cons hright.as .nil))))
    · exact .fail
  · exact .fail

omit hG in
theorem spellsAll_comparisonSign : SpellsAll comparisonSign := by
  intro s
  refine .look reads_peek fun _ => ?_
  split
  · refine .ite ?_ .fail
    exact .bind (spells_operator _ s) fun t sign hsign => .done hsign
  · exact .bind (spells_keyword "in" s) fun t word hword => .done hword
  · refine .bind (spells_keyword "not" s) fun t first hfirst => ?_
    refine .bind (spells_keyword "in" t) fun u second hsecond => ?_
    exact .done (.cons hfirst (.cons hsecond .nil))
  · refine .bind (spells_keyword "is" s) fun t first hfirst => ?_
    refine .bind (spellsAll_perhaps (spells_keyword "not") t) fun u second hsecond => ?_
    exact .done (.cons hfirst hsecond)
  · exact .fail

theorem spells_comparison : Spells (comparison G) := by
  intro s
  refine .bind (spells_binary hG 14 s) fun t first hfirst => ?_
  have hmore : SpellsAll (do
      let sign ← comparisonSign
      return sign ++ [← binary G 14]) := by
    intro s
    refine .bind (spellsAll_comparisonSign s) fun t sign hsign => ?_
    refine .bind (spells_binary hG 14 t) fun u operand hoperand => ?_
    exact .done (.append hsign hoperand)
  refine .bind (reads_many_flatten hmore) fun u more hmore => ?_
  split
  · rename_i hnone
    rw [List.isEmpty_iff.1 hnone] at hmore
    exact .done (.append hfirst hmore)
  · exact .done (.build trivial (.cons hfirst hmore))

/-! ## Parameters -/

omit hG in
theorem reads_splatParameter (k : Kind) (hk : ∀ ps, Shape k ps) (hnamed : k.isNamed = true)
    (star : String) (s : List Lexeme) :
    Reads s (splatParameter star k) fun t p => Spelled s t [p] ∧ p.IsNamed ∧ p.IsFree := by
  refine .bind (spells_operator star s) fun t sign hsign => ?_
  refine .bind (spells_identifier t) fun u name hname => ?_
  have hspelled : Spelled s u [.build k [sign, name]] :=
    .build (hk _) (.cons hsign (.cons hname .nil))
  exact .done ⟨hspelled, Part.isNamed_build hnamed _, Part.isFree_build k _⟩

omit hG in
/-- A parameter with its annotation, if it has one. -/
theorem Spelled.typed {s t u : List Lexeme} {p : Part} {type : List Part}
    (hp : Spelled s t [p] ∧ p.IsNamed ∧ p.IsFree) (htype : Spelled t u type) :
    Spelled s u [if type.isEmpty then p else .build .typedParameter (p :: type)] := by
  split
  · rename_i hnone
    rw [List.isEmpty_iff.1 hnone] at htype
    exact .append hp.1 htype
  · exact .build ⟨p, type, rfl, hp.2⟩ (.cons hp.1 htype)

/-- A name for a parameter, with its default, if it has one. -/
theorem reads_withDefault {k : Kind} (hk : ∀ qs, TakeRoles [.name, .type, .value] qs → Shape k qs)
    {s t : List Lexeme} {ps : List Part} (h : Spelled s t ps)
    (hroles : TakeRoles [.name, .type] ps) :
    Reads t (do
      let equals ← operator "="
      let value := (← G (.expression false)).as .value
      return .build k (ps ++ [equals, value])) fun u p => Spelled s u [p] := by
  refine .bind ((spells_operator "=" t).and (reads_operator_bare "=")) fun u equals hequals => ?_
  refine .bind (hG.spells _ u) fun v value hvalue => ?_
  have hall : TakeRoles ([.name, .type] ++ [.value]) (ps ++ [equals, value.as .value]) :=
    .append hroles (.bare hequals.2 (.role .nil))
  exact .done (.build (hk _ hall) (.append h (.cons hequals.1 (.cons hvalue.as .nil))))

theorem spells_parameter (annotated : Bool) : Spells (parameter G annotated) := by
  intro s
  have htyped (s : List Lexeme) : Reads s (do
      if annotated && (← atOperator ":") then
        return [← operator ":", (← G .typeExpression).as .type]
      else return []) fun t ps => Spelled s t ps ∧ TakeRoles [.type] ps := by
    refine .look (reads_atOperator ":") fun _ => .ite ?_ (.done ⟨.nil, .nil⟩)
    refine .bind ((spells_operator ":" s).and (reads_operator_bare ":")) fun t colon hcolon => ?_
    refine .bind (hG.spells _ t) fun u type htype => ?_
    exact .done ⟨.cons hcolon.1 (.cons htype.as .nil), .bare hcolon.2 (.role .nil)⟩
  refine .look reads_peek fun _ => ?_
  split
  · exact spells_leaf .positionalSeparator (fun _ => trivial) s
  · refine .bind (spells_parenthesized (spells_primaryRule hG) hG s) fun t tuple htuple => ?_
    refine .bind htuple.asTarget fun u target htarget => ?_
    refine .look (reads_atOperator "=") fun _ => .ite ?_ (.done htarget)
    have hname : TakeRoles [.name, .type] [target.as .name] := .role .nil
    exact reads_withDefault hG (k := .defaultParameter) (fun _ h => h) (.cons htarget.as .nil) hname
  · refine .or ?_ (spells_leaf .keywordSeparator (fun _ => trivial) s)
    have hsplat := reads_splatParameter .listSplatPattern (fun _ => trivial) rfl "*" s
    refine .bind hsplat fun t name hname => ?_
    refine .bind (htyped t) fun u type htype => ?_
    exact .done (.typed hname htype.1)
  · have hsplat := reads_splatParameter .dictionarySplatPattern (fun _ => trivial) rfl "**" s
    refine .bind hsplat fun t name hname => ?_
    refine .bind (htyped t) fun u type htype => ?_
    exact .done (.typed hname htype.1)
  · refine .bind ((spells_identifier s).and reads_leaf_node) fun t name hname => ?_
    refine .bind (htyped t) fun u type htype => ?_
    have hplain := Part.isNamed_of_isKind hname.2.1 rfl
    refine .look (reads_atOperator "=") fun _ => .ite ?_
      (.done (.typed ⟨hname.1, hplain, hname.2.2⟩ htype.1))
    refine reads_withDefault hG (fun _ h => ?_) (.append (.cons hname.1.as .nil) htype.1)
      (.role htype.2)
    split
    · exact h
    · exact h

theorem spells_lambda (inClause : Bool) : Spells (lambda G inClause) := by
  intro s
  refine .bind ((spells_keyword "lambda" s).and (reads_keyword_bare _)) fun t word hword => ?_
  have hparameter := spellsAll_commaSeparatedOrNone (spells_parameter hG false)
  refine .bind (hparameter t) fun u ps hps => ?_
  have hparameters : Spelled t u
      (if ps.isEmpty then [] else [(Part.build .lambdaParameters ps).as .parameters]) := by
    split
    · rename_i hnone
      rwa [List.isEmpty_iff.1 hnone] at hps
    · exact .as (.build trivial hps)
  have hroles : TakeRoles [.parameters]
      (if ps.isEmpty then [] else [(Part.build .lambdaParameters ps).as .parameters]) ∧
      AllIn .parameters [.lambdaParameters]
        (if ps.isEmpty then [] else [(Part.build .lambdaParameters ps).as .parameters]) := by
    split
    · exact ⟨.nil, nofun⟩
    · exact ⟨.role .nil, allIn_as (isKind_build _ _) _⟩
  refine .bind ((spells_operator ":" u).and (reads_operator_bare ":")) fun v colon hcolon => ?_
  refine .bind (hG.spells _ v) fun w body hbody => ?_
  have hfront : TakeRoles [] [word] := .bare hword.2 .nil
  have hback : TakeRoles [.body] [colon, body.as .body] := .bare hcolon.2 (.role .nil)
  exact .done (.build
    ⟨.append (.append hfront hroles.1) hback,
      .append (.append (hfront.allIn List.not_mem_nil _) hroles.2) (hback.allIn (by decide) _)⟩
    (.append (.append (.cons hword.1 .nil) hparameters) (.cons hcolon.1 (.cons hbody.as .nil))))

/-! ## Expressions -/

theorem spells_namedExpression (inClause : Bool) : Spells (namedExpression G inClause) := by
  intro s
  refine .bind ((spells_identifier s).and reads_leaf_node) fun t name hname => ?_
  refine .bind ((spells_operator ":=" t).and (reads_operator_bare ":=")) fun u sign hsign => ?_
  refine .bind (hG.spells _ u) fun v value hvalue => ?_
  have hshape : Shape .namedExpression [name.as .name, sign, value.as .value] :=
    ⟨firstIn_of_free (List.forall_mem_nil _) hname.2.1 (List.mem_singleton_self _),
      .role (.bare hsign.2 (.role .nil))⟩
  exact .done (.build hshape (.cons hname.1.as (.cons hsign.1 (.cons hvalue.as .nil))))

theorem spells_negation (inClause : Bool) : Spells (negation G inClause) := by
  intro s
  refine .look reads_peek fun _ => ?_
  split
  · refine .bind (spells_keyword "not" s) fun t word hword => ?_
    refine .bind (hG.spells _ t) fun u argument hargument => ?_
    exact .done (.build trivial (.cons hword (.cons hargument.as .nil)))
  · exact spells_lambda hG inClause s
  · refine .look reads_peekSecond fun _ => .ite ?_ ?_
    · exact spells_namedExpression hG inClause s
    · exact spells_comparison hG s
  · exact spells_comparison hG s

omit hG in
theorem spells_joined (word : String) {operand : Read Part} (hoperand : Spells operand) :
    Spells (joined word operand) := by
  intro s
  refine .bind (hoperand s) fun t first hfirst => ?_
  refine reads_extend hfirst fun u left hleft => ?_
  refine .bind (spells_keyword word u) fun v sign hsign => ?_
  refine .bind (hoperand v) fun w right hright => ?_
  exact .done (.build trivial (.cons hleft.as (.cons hsign.as (.cons hright.as .nil))))

theorem spells_disjunction (inClause : Bool) : Spells (disjunction G inClause) :=
  spells_joined "or" (spells_joined "and" (spells_negation hG inClause))

theorem reads_asTail (inClause : Bool) {s t : List Lexeme} {left : Part}
    (hleft : Spelled s t [left]) :
    Reads t (asTail G inClause left) fun u p => Spelled s u [p] := by
  refine reads_extend hleft fun u value hvalue => ?_
  refine .bind (spells_keyword "as" u) fun v word hword => ?_
  refine .bind ((hG.spells _ v).and (hG.operand inClause v)) fun w target htarget => ?_
  have hpattern : Spelled v w [.build .asPatternTarget [target]] :=
    .build ⟨target, rfl, htarget.2⟩ htarget.1
  exact .done (.build trivial (.cons hvalue (.cons hword (.cons hpattern.as .nil))))

theorem spells_expression (inClause : Bool) : Spells (expression G inClause) := by
  intro s
  refine .bind (spells_disjunction hG inClause s) fun t first hfirst => ?_
  refine .bind (reads_asTail hG inClause hfirst) fun u value hvalue => ?_
  refine .look (reads_atKeyword "if") fun _ => .ite (.or ?_ (.done hvalue)) (.done hvalue)
  refine .bind (spells_keyword "if" u) fun v ifWord hif => ?_
  refine .bind (hG.spells _ v) fun w condition hcondition => ?_
  refine .bind (spells_keyword "else" w) fun x elseWord helse => ?_
  refine .bind (hG.spells _ x) fun y other hother => ?_
  exact .done (.build trivial
    (.cons hvalue (.cons hif (.cons hcondition (.cons helse (.cons hother .nil))))))

/-! ## Annotations -/

theorem spells_typeParameter : Spells (typeParameter G) := by
  intro s
  have hbounded : Spells (do
      let type ← G .typeExpression
      if ← atOperator ":" then
        let colon ← operator ":"
        let bound ← G .typeExpression
        return .build .type [.build .constrainedType [type, colon, bound]]
      else return type) := by
    intro s
    refine .bind (hG.spells _ s) fun t type htype => ?_
    refine .look (reads_atOperator ":") fun _ => .ite ?_ (.done htype)
    refine .bind (spells_operator ":" t) fun u colon hcolon => ?_
    refine .bind (hG.spells _ u) fun v bound hbound => ?_
    exact .done (.build trivial (.build trivial (.cons htype (.cons hcolon hbound))))
  refine .bind (spells_operator "[" s) fun t opening hopening => ?_
  refine .bind (spellsAll_commaSeparated hbounded t) fun u items hitems => ?_
  refine .bind (spells_operator "]" u) fun v closing hclosing => ?_
  exact .done (.build trivial (.append (.append
    (.cons hopening .nil) hitems) (.cons hclosing .nil)))

theorem spells_genericType : Spells (genericType G) := by
  intro s
  refine .bind (spells_identifier s) fun t name hname => ?_
  refine .bind (spells_typeParameter hG t) fun u parameters hparameters => ?_
  have hgeneric : Spelled s u [.build .genericType [name, parameters]] :=
    .build trivial (.cons hname hparameters)
  have hwhole : Reads u (extend (fun p => do
      let wrapped := Part.build .type [p]
      if ← atOperator "|" then
        let sign ← operator "|"
        return .build .unionType [wrapped, sign, ← G .typeExpression]
      else
        let dot ← operator "."
        return .build .memberType [wrapped, dot, ← anyName])
      (.build .genericType [name, parameters])) fun v p => Spelled s v [p] := by
    refine reads_extend hgeneric fun v p hp => ?_
    have hwrapped : Spelled s v [.build .type [p]] := .build trivial hp
    refine .look (reads_atOperator "|") fun _ => .ite ?_ ?_
    · refine .bind (spells_operator "|" v) fun w sign hsign => ?_
      refine .bind (hG.spells _ w) fun x other hother => ?_
      exact .done (.build trivial (.cons hwrapped (.cons hsign hother)))
    · refine .bind (spells_operator "." v) fun w dot hdot => ?_
      refine .bind (spells_anyName w) fun x member hmember => ?_
      exact .done (.build trivial (.cons hwrapped (.cons hdot hmember)))
  refine .bind hwhole fun v whole hwhole => ?_
  refine .look reads_peek fun _ => ?_
  split
  · exact .fail
  · exact .fail
  · exact .done hwhole

theorem spells_typeExpression : Spells (typeExpression G) := by
  intro s
  have hstarred (star : String) : Spells (do
      return .build .splatType [← operator star, ← identifier]) := by
    intro s
    refine .bind (spells_operator star s) fun t sign hsign => ?_
    refine .bind (spells_identifier t) fun u name hname => ?_
    exact .done (.build trivial (.cons hsign hname))
  refine .bind (.or (hstarred "*" s) (.or (hstarred "**" s) (.or (spells_genericType hG s)
    (spells_element hG s)))) fun t inner hinner => ?_
  exact .done (.build trivial hinner)

end

end CrossRef.Syntax
