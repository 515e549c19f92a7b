/-
  CrossRef.Proofs.Syntax.Statement

  The rules for statements, blocks and patterns spell what they take, and so
  does the whole grammar (`spelled_parse`): the recursive rules by induction
  on their depth. Some constructs are looked at more closely. A dotted name
  ends in a name, an import from a module has the module behind its first
  word, and definitions, loops and assignments are made of their roles in the
  order of the text.
-/
import CrossRef.Proofs.Syntax.Expression
import CrossRef.Syntax.Statement

namespace CrossRef.Syntax

open Read

section

variable {s t : List Lexeme} {ps : List Part}

/-- Pieces that are not bare tokens take a role. -/
theorem Spelled.mapRole (f : Field) (h : Spelled s t ps) :
    Spelled s t (ps.map fun p => if p.isKind .token then p else p.as f) := by
  refine h.map fun hp => ?_
  split
  · exact hp
  · exact hp.as

theorem spells_wholeStatement {p : Read Part} (hp : Spells p) : Spells (wholeStatement p) := by
  intro s
  refine .bind (hp s) fun t part hpart => ?_
  exact .look reads_atStatementEnd fun _ => .ite (.done hpart) .fail

/-! ## Imports -/

/-- With what stands behind the dots, names are words and still end in a name. -/
theorem reads_moreNames :
    Reads s (many do
      let dot ← operator "."
      return [dot, ← anyName]) fun t pss => Spelled s t pss.flatten ∧
        ∀ qs, Shape .dottedName qs → Shape .dottedName (qs ++ pss.flatten) := by
  refine reads_many_of (P := fun s t ps => Spelled s t ps ∧ Shape .dottedName ps)
    (R := fun s t pss => Spelled s t pss.flatten ∧
      ∀ qs, Shape .dottedName qs → Shape .dottedName (qs ++ pss.flatten))
    (fun s => ?_) (fun _ => ⟨.nil, fun qs hqs => ?_⟩) ?_
  · refine .bind ((spells_operator "." s).and reads_leaf_isLeaf) fun t dot hdot => ?_
    refine .bind ((spells_anyName t).and (reads_leaf_node.and reads_leaf_isLeaf))
      fun u name hname => ?_
    refine .done ⟨.cons hdot.1 hname.1, ⟨[dot], name, rfl, hname.2.1.1⟩, ?_⟩
    exact List.forall_mem_cons.2 ⟨hdot.2, List.forall_mem_singleton.2 hname.2.2⟩
  · rwa [List.flatten_nil, List.append_nil]
  · rintro s t u ps pss ⟨hps, ⟨rs, r, rfl, hr⟩, hleaf⟩ ⟨hpss, hlast⟩
    refine ⟨.append hps hpss, fun qs hqs => ?_⟩
    rw [List.flatten_cons, ← List.append_assoc]
    exact hlast _ ⟨⟨qs ++ rs, r, (List.append_assoc ..).symm, hr⟩,
      List.forall_mem_append.2 ⟨hqs.2, hleaf⟩⟩

theorem spells_dottedName : Spells dottedName := by
  intro s
  refine .bind ((spells_identifier s).and (reads_leaf_node.and reads_leaf_isLeaf))
    fun t first hfirst => ?_
  refine .bind reads_moreNames fun u more hmore => ?_
  have hshape : Shape .dottedName [first] :=
    ⟨⟨[], first, rfl, hfirst.2.1.1⟩, List.forall_mem_singleton.2 hfirst.2.2⟩
  exact .done (.build (hmore.2 [first] hshape) (.cons hfirst.1 hmore.1))

theorem reads_dottedName_kind :
    Reads s dottedName fun _ p => p.isKind .dottedName = true := by
  refine .bind (spells_identifier s) fun t first _ => ?_
  exact .bind reads_moreNames fun u more _ => .done (isKind_build _ _)

theorem spells_importedName : Spells importedName := by
  intro s
  refine .bind ((spells_dottedName s).and reads_dottedName_kind) fun t name hname => ?_
  refine .look (reads_atKeyword "as") fun _ => .ite ?_ (.done hname.1)
  refine .bind ((spells_keyword "as" t).and (reads_keyword_bare "as")) fun u word hword => ?_
  refine .bind ((spells_identifier u).and reads_leaf_node) fun v other hother => ?_
  have hshape : Shape .aliasedImport [name.as .name, word, other.as .alias] := by
    obtain ⟨n, hn, hkind⟩ := exists_of_isKind hother.2.1
    refine ⟨⟨⟨[name.as .name, word], other, [], rfl, ?_, n, hn,
      hkind ▸ List.mem_singleton_self _⟩,
      firstIn_of_free (List.forall_mem_nil _) hname.2 (List.mem_singleton_self _)⟩,
      .role (.bare hword.2 (.role .nil))⟩
    exact List.forall_mem_cons.2 ⟨field_as_ne (by decide),
      List.forall_mem_singleton.2 (hword.2.isFree.field_ne _)⟩
  exact .done (.build hshape (.cons hname.1.as (.cons hword.1 (.cons hother.1.as .nil))))

theorem reads_importedName_kind :
    Reads s importedName fun _ p => ∃ k ∈ importedKinds, p.isKind k = true := by
  refine .bind reads_dottedName_kind fun t name hname => .after fun u _ => .ite ?_ (.done ?_)
  · exact .after fun v _ => .after fun w _ => .done ⟨.aliasedImport, by decide, isKind_build _ _⟩
  · exact ⟨.dottedName, by decide, hname⟩

/-- Of what is imported everything but the commas has the role of a name. -/
theorem reads_importedNames_kind :
    Reads s importedNames fun _ ps => AllIn .name importedKinds ps := by
  have hparts := reads_commaSeparated_of (s := s)
    (Q := fun p => (p.isKind .token = true ∧ p.IsFree) ∨ ∃ k ∈ importedKinds, p.isKind k = true)
    (fun _ => reads_importedName_kind.mono fun _ _ => .inr)
    (fun _ => reads_leaf_node.mono fun _ _ => .inl)
  refine .bind hparts fun t parts hparts => .done fun q hq n hn hfield => ?_
  obtain ⟨p, hp, rfl⟩ := List.mem_map.1 hq
  rcases hparts p hp with ⟨htoken, hfree⟩ | ⟨k, hk, hkind⟩
  · rw [if_pos htoken] at hn
    exact absurd hfield (hfree.field_ne _ n hn)
  · obtain ⟨m, hm, rfl⟩ := exists_of_isKind hkind
    have hnot : ¬ p.isKind .token = true := by
      rw [Part.isKind, hm, Option.any_some, beq_iff_eq]
      rintro htoken
      rw [htoken] at hk
      exact absurd hk (by decide)
    rw [if_neg hnot, Part.as, hm] at hn
    cases hn
    cases m
    exact hk

theorem spellsAll_importedNames : SpellsAll importedNames := by
  intro s
  refine .bind (spellsAll_commaSeparated spells_importedName s) fun t parts hparts => ?_
  exact .done (hparts.mapRole .name)

theorem spellsAll_importList : SpellsAll importList := by
  intro s
  refine .look (reads_atOperator "(") fun _ => .ite ?_ (spellsAll_importedNames s)
  refine .bind (spells_operator "(" s) fun t opening hopening => ?_
  refine .bind (spellsAll_importedNames t) fun u names hnames => ?_
  refine .bind (spells_operator ")" u) fun v closing hclosing => ?_
  exact .done (.append (.append (.cons hopening .nil) hnames) (.cons hclosing .nil))

theorem reads_importList_kind :
    Reads s importList fun _ ps => AllIn .name importedKinds ps := by
  refine .after fun t _ => .ite ?_ reads_importedNames_kind
  refine .bind reads_leaf_node fun u opening hopening => ?_
  refine .bind reads_importedNames_kind fun v names hnames => ?_
  refine .bind reads_leaf_node fun w closing hclosing => .done ?_
  exact .append (.append (allIn_of_free (List.forall_mem_singleton.2 hopening.2)) hnames)
    (allIn_of_free (List.forall_mem_singleton.2 hclosing.2))

theorem spells_importDots : Spells importDots := by
  intro s
  have hdot : Spells (operator "." <|> operator "...") := fun s =>
    .or (spells_operator "." s) (spells_operator "..." s)
  refine .bind (spellsAll_many1 hdot s) fun t dots hdots => ?_
  exact .done (.build trivial hdots)

/-- What stands between `from` and `import` is a module, relative or not. -/
theorem reads_module :
    Reads s ((do
      let dots ← importDots
      return .build .relativeImport (dots :: (← perhaps dottedName))) <|> dottedName)
      fun t p => Spelled s t [p] ∧
        (p.isKind .relativeImport = true ∨ p.isKind .dottedName = true) := by
  refine .or ?_ (.and (spells_dottedName s) (reads_dottedName_kind.mono fun _ _ => .inr))
  refine .bind (spells_importDots s) fun t dots hdots => ?_
  refine .bind (spellsAll_perhaps spells_dottedName t) fun u name hname => ?_
  exact .done ⟨.build trivial (.cons hdots hname), .inl (isKind_build _ _)⟩

theorem spells_importFrom : Spells importFrom := by
  intro s
  refine .bind ((spells_keyword "from" s).and reads_leaf_node) fun t fromWord hfrom => .or ?_ ?_
  · refine .bind (spells_keyword "__future__" t) fun u future hfuture => ?_
    refine .bind (spells_keyword "import" u) fun v word hword => ?_
    refine .bind (spellsAll_importList v) fun w names hnames => ?_
    exact .done (.build trivial
      (.append (.cons hfrom.1 (.cons hfuture (.cons hword .nil))) hnames))
  · refine .bind reads_module fun u module hmodule => ?_
    refine .bind ((spells_keyword "import" u).and reads_leaf_node) fun v word hword => ?_
    have hnames : Reads v ((do return [← operatorAs .wildcardImport "*"]) <|> importList)
        fun t ps => Spelled v t ps ∧ AllIn .name importedKinds ps := by
      refine .or ?_ ((spellsAll_importList v).and reads_importList_kind)
      refine .bind ((spells_leaf .wildcardImport (fun _ => trivial) v).and reads_leaf_node)
        fun _ star hstar => .done ⟨hstar.1, ?_⟩
      exact allIn_of_free (List.forall_mem_singleton.2 hstar.2.2)
    refine .bind hnames fun w names hnames => ?_
    have hshape : Shape .importFromStatement
        ([fromWord, module.as .moduleName, word] ++ names) := by
      have hfree : ∀ q ∈ [fromWord], q.IsFree := List.forall_mem_singleton.2 hfrom.2.2
      constructor
      · rcases hmodule.2 with hkind | hkind
        · exact firstIn_of_free hfree hkind (by decide)
        · exact firstIn_of_free hfree hkind (by decide)
      · have hmodule : AllIn .name importedKinds [module.as .moduleName] := by
          intro p hp n hn hfield
          cases List.mem_singleton.1 hp
          exact absurd hfield (field_as_ne (by decide) n hn)
        exact .append (.append (allIn_of_free hfree) (.append hmodule
          (allIn_of_free (List.forall_mem_singleton.2 hword.2.2)))) hnames.2
    exact .done (.build hshape
      (.append (.cons hfrom.1 (.cons hmodule.1.as (.cons hword.1 .nil))) hnames.1))

/-! ## Simple statements without expressions -/

theorem spells_bare (k : Kind) (hk : ∀ ps, Shape k ps) (word : String) :
    Spells (bare k word) := by
  intro s
  refine .bind (spells_keyword word s) fun t word hword => ?_
  exact .done (.build (hk _) hword)

theorem spells_named (k : Kind) (hk : ∀ ps, Shape k ps) (word : String) :
    Spells (named k word) := by
  intro s
  refine .bind (spells_keyword word s) fun t word hword => ?_
  refine .bind (spellsAll_commaSeparated spells_identifier t) fun u names hnames => ?_
  exact .done (.build (hk _) (.cons hword hnames))

end

section

variable {G : Rules} (hG : G.Spell)
include hG

/-! ## Assignments and expression statements -/

theorem reads_assignmentFrom {s t : List Lexeme} {ps : List Part} (hps : Spelled s t ps) :
    Reads t (assignmentFrom G ps) fun u p => Spelled s u [p] := by
  refine .look reads_peek fun _ => ?_
  split
  · refine .bind hps.asTargets fun u left hleft => ?_
    refine .bind ((spells_operator "=" u).and (reads_operator_bare "=")) fun v sign hsign => ?_
    refine .bind (hG.spells _ v) fun w right hright => ?_
    have hshape : TakeRoles ([.left] ++ [.type] ++ [.right])
        ([left.as .left] ++ [] ++ [sign, right.as .right]) :=
      .append (.append (.role .nil) .nil) (.bare hsign.2 (.role .nil))
    exact .done (.build hshape (.cons hleft.as (.cons hsign.1 (.cons hright.as .nil))))
  · refine .ite .fail ?_
    refine .bind hps.asTargets fun u left hleft => ?_
    refine .bind ((spells_operator ":" u).and (reads_operator_bare ":")) fun v colon hcolon => ?_
    refine .bind (hG.spells _ v) fun w type htype => ?_
    refine .look (reads_atOperator "=") fun _ => .ite ?_ ?_
    · refine .bind ((spells_operator "=" w).and (reads_operator_bare "=")) fun x sign hsign => ?_
      refine .bind (hG.spells _ x) fun y right hright => ?_
      have hshape : TakeRoles [.left, .type, .right]
          [left.as .left, colon, type.as .type, sign, right.as .right] :=
        .role (.bare hcolon.2 (.role (.bare hsign.2 (.role .nil))))
      exact .done (.build hshape (.cons hleft.as (.cons hcolon.1
        (.cons htype.as (.cons hsign.1 (.cons hright.as .nil))))))
    · have hshape : TakeRoles [.left, .type, .right] [left.as .left, colon, type.as .type] :=
        .role (.bare hcolon.2 (.role .nil))
      exact .done (.build hshape (.cons hleft.as (.cons hcolon.1 (.cons htype.as .nil))))
  · refine .ite ?_ .fail
    refine .bind hps.asTargets fun u left hleft => ?_
    refine .bind (spells_operator _ u) fun v sign hsign => ?_
    refine .bind (hG.spells _ v) fun w right hright => ?_
    exact .done (.build trivial (.cons hleft.as (.cons hsign.as (.cons hright.as .nil))))
  · exact .fail

theorem spells_assigned : Spells (assigned G) := by
  intro s
  refine .or (spells_yieldExpression hG s) ?_
  refine .bind (spellsAll_commaSeparated (spells_element hG) s) fun t parts hparts => ?_
  refine .look reads_peek fun _ => ?_
  split
  · exact .done hparts.asExpressions
  · exact .or (reads_assignmentFrom hG hparts) (.done hparts.asExpressions)

theorem spells_expressionStatement : Spells (expressionStatement G) := by
  intro s
  refine .look (reads_atKeyword "yield") fun _ => .ite ?_ ?_
  · refine .bind (spells_yieldExpression hG s) fun t value hvalue => ?_
    exact .done (.build trivial hvalue)
  refine .bind (spellsAll_commaSeparated (spells_element hG) s) fun t parts hparts => ?_
  refine .or ?_ (.done (.build trivial hparts))
  refine .bind (reads_assignmentFrom hG hparts) fun u assignment hassignment => ?_
  exact .done (.build trivial hassignment)

/-! ## Simple statements -/

theorem spells_expressions : Spells (expressions G) := by
  intro s
  refine .bind (spellsAll_commaSeparated (spells_element hG) s) fun t values hvalues => ?_
  exact .done hvalues.asExpressions

theorem spells_raiseStatement : Spells (raiseStatement G) := by
  intro s
  refine .bind (spells_keyword "raise" s) fun t word hword => ?_
  refine .bind (spellsAll_perhaps (spells_expressions hG) t) fun u raised hraised => ?_
  have hcause : SpellsAll ((do
      let source ← keyword "from"
      return [source, (← G (.expression false)).as .cause]) <|> pure []) := by
    intro s
    refine .or ?_ (.done .nil)
    refine .bind (spells_keyword "from" s) fun t source hsource => ?_
    refine .bind (hG.spells _ t) fun u value hvalue => ?_
    exact .done (.cons hsource (.cons hvalue.as .nil))
  refine .bind (hcause u) fun v cause hcause => ?_
  exact .done (.build trivial (.append (.append (.cons hword .nil) hraised) hcause))

theorem spells_printStatement : Spells (printStatement G) := by
  intro s
  have hargument := (hG.spells (.expression false)).as .argument
  refine .bind (spells_keyword "print" s) fun t word hword => ?_
  refine .look (reads_atOperator ">>") fun _ => .ite ?_ ?_
  · refine .bind (spells_operator ">>" t) fun u sign hsign => ?_
    refine .bind (hG.spells _ u) fun v value hvalue => ?_
    have hstream : Spelled t v [.build .chevron [sign, value]] :=
      .build trivial (.cons hsign hvalue)
    have hmore : SpellsAll (do
        let comma ← operator ","
        return [comma, ← (return (← G (.expression false)).as .argument : Read Part)]) := by
      intro s
      refine .bind (spells_operator "," s) fun t comma hcomma => ?_
      refine .bind (hargument t) fun u argument hargument => ?_
      exact .done (.cons hcomma hargument)
    refine .bind (reads_many_flatten hmore) fun w more hmore => ?_
    refine .bind (spellsAll_perhaps (spells_operator ",") w) fun x last hlast => ?_
    exact .done (.build trivial
      (.append (.append (.cons hword (.cons hstream .nil)) hmore) hlast))
  · refine .bind (spellsAll_commaSeparated hargument t) fun u arguments harguments => ?_
    exact .done (.build trivial (.cons hword harguments))

theorem spells_execStatement : Spells (execStatement G) := by
  intro s
  refine .bind (spells_keyword "exec" s) fun t word hword => ?_
  have hcode : Spells (strings <|> identifier) := fun s =>
    .or (spells_strings s) (spells_identifier s)
  refine .bind (hcode t) fun u code hcode => ?_
  refine .look (reads_atKeyword "in") fun _ => .ite ?_ ?_
  · refine .bind (spells_keyword "in" u) fun v inWord hin => ?_
    refine .bind (spellsAll_commaSeparated (hG.spells _) v) fun w spaces hspaces => ?_
    exact .done (.build trivial
      (.append (.cons hword (.cons hcode.as (.cons hin .nil))) hspaces))
  · exact .done (.build trivial (.cons hword hcode.as))

theorem spells_typeAlias : Spells (typeAlias G) := by
  intro s
  refine .bind (spells_keyword "type" s) fun t word hword => ?_
  refine .bind (spells_typeExpression hG t) fun u left hleft => ?_
  refine .bind (spells_operator "=" u) fun v equals hequals => ?_
  refine .bind (spells_typeExpression hG v) fun w right hright => ?_
  exact .done (.build trivial
    (.cons hword (.cons hleft.as (.cons hequals (.cons hright.as .nil)))))

theorem spells_simpleStatement : Spells (simpleStatement G) := by
  intro s
  have hexpression := spells_wholeStatement (spells_expressionStatement hG)
  refine .look reads_peek fun _ => ?_
  split
  · refine .bind (spells_keyword "import" s) fun t word hword => ?_
    refine .bind (spellsAll_importedNames t) fun u names hnames => ?_
    exact .done (.build trivial (.cons hword hnames))
  · exact spells_importFrom s
  · refine .bind (spells_keyword "assert" s) fun t word hword => ?_
    refine .bind (spellsAll_commaSeparated (hG.spells _) t) fun u values hvalues => ?_
    exact .done (.build trivial (.cons hword hvalues))
  · refine .bind (spells_keyword "return" s) fun t word hword => ?_
    refine .bind (spellsAll_perhaps (spells_expressions hG) t) fun u value hvalue => ?_
    exact .done (.build trivial (.cons hword hvalue))
  · refine .bind (spells_keyword "del" s) fun t word hword => ?_
    refine .bind (spells_expressions hG t) fun u values hvalues => ?_
    exact .done (.build trivial (.cons hword hvalues))
  · exact spells_raiseStatement hG s
  · exact spells_bare .passStatement (fun _ => trivial) "pass" s
  · exact spells_bare .breakStatement (fun _ => trivial) "break" s
  · exact spells_bare .continueStatement (fun _ => trivial) "continue" s
  · exact spells_named .globalStatement (fun _ => trivial) "global" s
  · exact spells_named .nonlocalStatement (fun _ => trivial) "nonlocal" s
  · refine .look reads_peekSecond fun _ => .ite (spells_printStatement hG s) ?_
    exact .or (hexpression s) (spells_printStatement hG s)
  · exact .or (hexpression s) (spells_execStatement hG s)
  · exact .or (spells_wholeStatement (spells_typeAlias hG) s) (spells_expressionStatement hG s)
  · exact spells_expressionStatement hG s

theorem spellsAll_simpleStatements : SpellsAll (simpleStatements G) := by
  intro s
  refine .bind (spells_simpleStatement hG s) fun t first hfirst => ?_
  have hmore : SpellsAll (do
      let semicolon ← operator ";"
      return [semicolon, ← simpleStatement G]) := by
    intro s
    refine .bind (spells_operator ";" s) fun t semicolon hsemicolon => ?_
    refine .bind (spells_simpleStatement hG t) fun u next hnext => ?_
    exact .done (.cons hsemicolon hnext)
  refine .bind (reads_many_flatten hmore) fun u more hmore => ?_
  refine .bind (spellsAll_perhaps (spells_operator ";") u) fun v last hlast => ?_
  refine .bind (spells_mark .newline v) fun w ending hending => ?_
  exact .done (.append (.append (.append (.cons hfirst .nil) hmore) hlast) hending)

/-! ## Compound statements -/

theorem spellsAll_body (f : Field) : SpellsAll (body G f) := by
  intro s
  refine .bind (spells_operator ":" s) fun t colon hcolon => ?_
  refine .bind (hG.spells _ t) fun u block hblock => ?_
  exact .done (.cons hcolon (.cons hblock.as .nil))

theorem reads_body_roles {s : List Lexeme} {f : Field} :
    Reads s (body G f) fun _ ps => TakeRoles [f] ps ∧ AllIn f [.block] ps := by
  refine .bind (reads_operator_bare ":") fun t colon hcolon => ?_
  refine .bind (hG.suite t) fun u block hblock => .done ⟨.bare hcolon (.role .nil), ?_⟩
  have hfree : ∀ p ∈ [colon], p.IsFree := List.forall_mem_singleton.2 hcolon.isFree
  exact .append (allIn_of_free hfree) (allIn_as hblock f)

theorem spells_elseClause : Spells (elseClause G) := by
  intro s
  refine .bind (spells_keyword "else" s) fun t word hword => ?_
  refine .bind (spellsAll_body hG _ t) fun u block hblock => ?_
  exact .done (.as (.build trivial (.cons hword hblock)))

theorem spells_ifStatement : Spells (ifStatement G) := by
  intro s
  refine .bind (spells_keyword "if" s) fun t word hword => ?_
  refine .bind (hG.spells _ t) fun u condition hcondition => ?_
  refine .bind (spellsAll_body hG _ u) fun v block hblock => ?_
  have hother : Spells (do
      let word ← keyword "elif"
      let condition := (← G (.expression false)).as .condition
      return (Part.build .elifClause ([word, condition] ++ (← body G .consequence))).as
        .alternative) := by
    intro s
    refine .bind (spells_keyword "elif" s) fun t word hword => ?_
    refine .bind (hG.spells _ t) fun u condition hcondition => ?_
    refine .bind (spellsAll_body hG _ u) fun v block hblock => ?_
    exact .done (.as (.build trivial (.append (.cons hword (.cons hcondition.as .nil)) hblock)))
  refine .bind (spellsAll_many hother v) fun w others hothers => ?_
  refine .bind (spellsAll_perhaps (spells_elseClause hG) w) fun x last hlast => ?_
  exact .done (.build trivial (.append (.append (.append
    (.cons hword (.cons hcondition.as .nil)) hblock) hothers) hlast))

theorem spells_whileStatement : Spells (whileStatement G) := by
  intro s
  refine .bind (spells_keyword "while" s) fun t word hword => ?_
  refine .bind (hG.spells _ t) fun u condition hcondition => ?_
  refine .bind (spellsAll_body hG _ u) fun v block hblock => ?_
  refine .bind (spellsAll_perhaps (spells_elseClause hG) v) fun w last hlast => ?_
  exact .done (.build trivial
    (.append (.append (.cons hword (.cons hcondition.as .nil)) hblock) hlast))

omit hG in
theorem reads_elseClause_as (s : List Lexeme) :
    Reads s (elseClause G) fun _ p => ∃ q : Part, p = q.as .alternative :=
  .after fun _ _ => .after fun _ _ => .done ⟨_, rfl⟩

theorem spells_forStatement : Spells (forStatement G) := by
  intro s
  refine .bind (reads_perhaps_keyword "async") fun t async hasync => ?_
  refine .bind ((spells_keyword "for" t).and (reads_keyword_bare "for")) fun u word hword => ?_
  refine .bind (spells_targets (spells_primaryRule hG) u) fun v left hleft => ?_
  refine .bind ((spells_keyword "in" v).and (reads_keyword_bare "in")) fun w inWord hin => ?_
  refine .bind (spells_expressions hG w) fun x right hright => ?_
  refine .bind ((spellsAll_body hG _ x).and (reads_body_roles hG)) fun y block hblock => ?_
  have helse := (spellsAll_perhaps (spells_elseClause hG) y).and
    (reads_perhaps_roles reads_elseClause_as)
  refine .bind helse fun z last hlast => ?_
  have hshape : TakeRoles ([] ++ [.left, .right] ++ [.body] ++ [.alternative])
      (async ++ [word, left.as .left, inWord, right.as .right] ++ block ++ last) :=
    .append (.append (.append (.of_bare hasync.2)
      (.bare hword.2 (.role (.bare hin.2 (.role .nil))))) hblock.2.1) hlast.2
  exact .done (.build hshape (.append (.append (.append hasync.1
    (.cons hword.1 (.cons hleft.as (.cons hin.1 (.cons hright.as .nil))))) hblock.1) hlast.1))

theorem spells_caught : Spells (caught G) := by
  intro s
  refine .look (reads_atOperator "*") fun _ => .ite ?_ (hG.spells _ s)
  refine .bind (spells_operator "*" s) fun t star hstar => ?_
  refine .bind (hG.spells _ t) fun u value hvalue => ?_
  exact reads_asTail hG false (.build trivial (.cons hstar hvalue))

theorem spells_exceptClause : Spells (exceptClause G) := by
  intro s
  refine .bind (spells_keyword "except" s) fun t word hword => ?_
  have hnamed : SpellsAll (do
      let value := (← caught G).as .value
      if ← atOperator "," then
        let comma ← operator ","
        return [value, comma, (← G (.expression false)).as .alias]
      else return [value]) := by
    intro s
    refine .bind (spells_caught hG s) fun t value hvalue => ?_
    refine .look (reads_atOperator ",") fun _ => .ite ?_ (.done hvalue.as)
    refine .bind (spells_operator "," t) fun u comma hcomma => ?_
    refine .bind (hG.spells _ u) fun v name hname => ?_
    exact .done (.cons hvalue.as (.cons hcomma (.cons hname.as .nil)))
  refine .look (reads_atOperator ":") fun _ => .unless hnamed fun u exception hexception => ?_
  refine .bind (spells_operator ":" u) fun v colon hcolon => ?_
  refine .bind (hG.spells _ v) fun w block hblock => ?_
  exact .done (.build trivial
    (.append (.append (.cons hword .nil) hexception) (.cons hcolon (.cons hblock .nil))))

theorem spells_tryStatement : Spells (tryStatement G) := by
  intro s
  refine .bind (spells_keyword "try" s) fun t word hword => ?_
  refine .bind (spellsAll_body hG _ t) fun u block hblock => ?_
  refine .bind (spellsAll_many (spells_exceptClause hG) u) fun v handlers hhandlers => ?_
  refine .bind (spellsAll_perhaps (spells_elseClause hG) v) fun w otherwise hotherwise => ?_
  have hfinally : Spells (do
      let word ← keyword "finally"
      let colon ← operator ":"
      return .build .finallyClause [word, colon, ← G .suite]) := by
    intro s
    refine .bind (spells_keyword "finally" s) fun t word hword => ?_
    refine .bind (spells_operator ":" t) fun u colon hcolon => ?_
    refine .bind (hG.spells _ u) fun v block hblock => ?_
    exact .done (.build trivial (.cons hword (.cons hcolon hblock)))
  refine .bind (spellsAll_perhaps hfinally w) fun x final hfinal => ?_
  exact .done (.build trivial (.append (.append (.append (.append
    (.cons hword .nil) hblock) hhandlers) hotherwise) hfinal))

theorem spells_withClause : Spells (withClause G) := by
  intro s
  have hitem : Spells (do
      return Part.build .withItem [(← G (.expression false)).as .value]) := by
    intro s
    refine .bind (hG.spells _ s) fun t value hvalue => ?_
    exact .done (.build trivial hvalue.as)
  refine .or ?_ ?_
  · refine .bind (spells_operator "(" s) fun t opening hopening => ?_
    refine .bind (spellsAll_commaSeparated hitem t) fun u items hitems => ?_
    refine .bind (spells_operator ")" u) fun v closing hclosing => ?_
    refine .ite .fail (.look (reads_atOperator ":") fun _ => .ite ?_ .fail)
    exact .done (.build trivial
      (.append (.append (.cons hopening .nil) hitems) (.cons hclosing .nil)))
  · refine .bind (spellsAll_commaSeparated hitem s) fun t items hitems => ?_
    exact .done (.build trivial hitems)

theorem spells_withStatement : Spells (withStatement G) := by
  intro s
  refine .bind (spellsAll_perhaps (spells_keyword "async") s) fun t async hasync => ?_
  refine .bind (spells_keyword "with" t) fun u word hword => ?_
  refine .bind (spells_withClause hG u) fun v clause hclause => ?_
  refine .bind (spellsAll_body hG _ v) fun w block hblock => ?_
  exact .done (.build trivial
    (.append (.append hasync (.cons hword (.cons hclause .nil))) hblock))

theorem reads_typeParameters (s : List Lexeme) :
    Reads s (typeParameters G) fun t ps => Spelled s t ps ∧ TakeRoles [.typeParameters] ps := by
  refine .look (reads_atOperator "[") fun _ => .ite ?_ (.done ⟨.nil, .nil⟩)
  refine .bind (spells_typeParameter hG s) fun t parameters hparameters => ?_
  exact .done ⟨hparameters.as, .role .nil⟩

/-- What a function is said to return, if anything. -/
theorem reads_returns (s : List Lexeme) :
    Reads s ((do
      let arrow ← operator "->"
      return [arrow, (← G .typeExpression).as .returnType]) <|> pure [])
      fun t ps => Spelled s t ps ∧ TakeRoles [.returnType] ps := by
  refine .or ?_ (.done ⟨.nil, .nil⟩)
  refine .bind ((spells_operator "->" s).and (reads_operator_bare "->")) fun t arrow harrow => ?_
  refine .bind (hG.spells _ t) fun u type htype => ?_
  exact .done ⟨.cons harrow.1 (.cons htype.as .nil), .bare harrow.2 (.role .nil)⟩

theorem spells_functionDefinition : Spells (functionDefinition G) := by
  intro s
  refine .bind (reads_perhaps_keyword "async") fun t async hasync => ?_
  refine .bind ((spells_keyword "def" t).and (reads_keyword_bare "def")) fun u word hword => ?_
  refine .bind ((spells_anyName u).and reads_leaf_node) fun v name hname => ?_
  refine .bind (reads_typeParameters hG v) fun w types htypes => ?_
  refine .bind (spells_operator "(" w) fun x opening hopening => ?_
  have hparameter := spellsAll_commaSeparatedOrNone (spells_parameter hG true)
  refine .bind (hparameter x) fun y ps hps => ?_
  refine .bind (spells_operator ")" y) fun z closing hclosing => ?_
  have hparameters : Spelled w z [.build .parameters ([opening] ++ ps ++ [closing])] :=
    .build trivial (.append (.append (.cons hopening .nil) hps) (.cons hclosing .nil))
  refine .bind (reads_returns hG z) fun a returns hreturns => ?_
  refine .bind ((spellsAll_body hG _ a).and (reads_body_roles hG)) fun b block hblock => ?_
  have hfirst (more : List Part) :
      FirstIn .name [.identifier] (async ++ [word] ++ name.as .name :: more) := by
    refine firstIn_of_free ?_ hname.2.1 (List.mem_singleton_self _)
    exact List.forall_mem_append.2
      ⟨fun q hq => (hasync.2 q hq).isFree, List.forall_mem_singleton.2 hword.2.isFree⟩
  have hfront : TakeRoles ([] ++ [.name] ++ [.typeParameters])
      (async ++ [word, name.as .name] ++ types) :=
    .append (.append (.of_bare hasync.2) (.bare hword.2 (.role .nil))) htypes.2
  have hback : TakeRoles ([.returnType] ++ [.body]) (returns ++ block) :=
    .append hreturns.2 hblock.2.1
  have hmiddle (parameters : Part) : TakeRoles [.parameters] [parameters.as .parameters] :=
    .role .nil
  refine .done (.build ⟨?_, ?_, ?_, ?_⟩ (.append (.append (.append (.append (.append hasync.1
    (.cons hword.1 (.cons hname.1.as .nil))) htypes.1) (.cons hparameters.as .nil)) hreturns.1)
      hblock.1))
  · simpa only [List.append_assoc, List.cons_append, List.nil_append] using hfirst _
  · exact .append (.append (.append hfront (hmiddle _)) hreturns.2) hblock.2.1
  · rw [List.append_assoc]
    exact .append (.append (hfront.allIn (by decide) _) (allIn_as (isKind_build _ _) _))
      (hback.allIn (by decide) _)
  · refine .append (TakeRoles.allIn (.append (.append hfront (hmiddle _)) hreturns.2) ?_ _)
      hblock.2.2
    decide

theorem spells_classDefinition : Spells (classDefinition G) := by
  intro s
  refine .bind ((spells_keyword "class" s).and (reads_keyword_bare _)) fun t word hword => ?_
  refine .bind ((spells_anyName t).and reads_leaf_node) fun u name hname => ?_
  refine .bind (reads_typeParameters hG u) fun v types htypes => ?_
  have hbase := (spells_argumentList hG).as .superclasses
  have hbases := (spellsAll_perhaps hbase v).and (reads_perhaps_roles fun _ => reads_as)
  refine .bind hbases fun w bases hbases => ?_
  refine .bind ((spellsAll_body hG _ w).and (reads_body_roles hG)) fun x block hblock => ?_
  have hfirst : FirstIn .name [.identifier] ([word, name.as .name] ++ types ++ bases ++ block) := by
    have hfree : ∀ q ∈ [word], q.IsFree := List.forall_mem_singleton.2 hword.2.isFree
    exact firstIn_of_free hfree hname.2.1 (List.mem_singleton_self _)
  have hfront : TakeRoles ([.name] ++ [.typeParameters] ++ [.superclasses])
      ([word, name.as .name] ++ types ++ bases) :=
    .append (.append (.bare hword.2 (.role .nil)) htypes.2) hbases.2
  exact .done (.build
    ⟨hfirst, .append hfront hblock.2.1, .append (hfront.allIn (by decide) _) hblock.2.2⟩
    (.append (.append (.append
      (.cons hword.1 (.cons hname.1.as .nil)) htypes.1) hbases.1) hblock.1))

theorem spells_decoratedDefinition : Spells (decoratedDefinition G) := by
  intro s
  have hdecorator : Spells (do
      let sign ← operator "@"
      let value ← G (.expression false)
      return Part.build .decorator [sign, value, ← mark .newline]) := by
    intro s
    refine .bind (spells_operator "@" s) fun t sign hsign => ?_
    refine .bind (hG.spells _ t) fun u value hvalue => ?_
    refine .bind (spells_mark .newline u) fun v ending hending => ?_
    exact .done (.build trivial (.cons hsign (.cons hvalue hending)))
  refine .bind (spellsAll_many1 hdecorator s) fun t decorators hdecorators => ?_
  have hdefinition : Spells (classDefinition G <|> functionDefinition G) := fun s =>
    .or (spells_classDefinition hG s) (spells_functionDefinition hG s)
  refine .bind (hdefinition t) fun u definition hdefinition => ?_
  exact .done (.build trivial (.append hdecorators hdefinition.as))

/-! ## Structural matching -/

theorem spells_patternsIn (k : Kind) (hk : ∀ ps, Shape k ps) (opening closing : String) :
    Spells (patternsIn G k opening closing) := by
  intro s
  refine .bind (spells_operator opening s) fun t first hfirst => ?_
  refine .bind (spellsAll_commaSeparatedOrNone (hG.spells _) t) fun u items hitems => ?_
  refine .bind (spells_operator closing u) fun v last hlast => ?_
  exact .done (.build (hk _) (.append (.append (.cons hfirst .nil) hitems) (.cons hlast .nil)))

omit hG in
theorem spells_splatPattern : Spells splatPattern := by
  intro s
  have hstar : Spells (operator "*" <|> operator "**") := fun s =>
    .or (spells_operator "*" s) (spells_operator "**" s)
  refine .bind (hstar s) fun t star hstar => ?_
  refine .look (reads_atKeyword "_") fun _ => .ite ?_ ?_
  · refine .bind (spells_keyword "_" t) fun u name hname => ?_
    exact .done (.build trivial (.cons hstar hname))
  · refine .bind (spells_identifier t) fun u name hname => ?_
    exact .done (.build trivial (.cons hstar hname))

omit hG in
/-- The items of a dictionary pattern, each of several pieces. -/
theorem spellsAll_items {item : Read (List Part)} (hitem : SpellsAll item) :
    SpellsAll ((do
      let first ← item
      let more ← many do
        let comma ← operator ","
        return comma :: (← item)
      return first ++ more.flatten ++ (← perhaps (operator ","))) <|> pure []) := by
  intro s
  have hmore : SpellsAll (do
      let comma ← operator ","
      return comma :: (← item)) := by
    intro s
    refine .bind (spells_operator "," s) fun t comma hcomma => ?_
    refine .bind (hitem t) fun u next hnext => ?_
    exact .done (.cons hcomma hnext)
  refine .or ?_ (.done .nil)
  refine .bind (hitem s) fun t first hfirst => ?_
  refine .bind (reads_many_flatten hmore) fun u more hmore => ?_
  refine .bind (spellsAll_perhaps (spells_operator ",") u) fun v last hlast => ?_
  exact .done (.append (.append hfirst hmore) hlast)

theorem spellsAll_closedPattern {union : Read (List Part)} (hunion : SpellsAll union) :
    SpellsAll (closedPattern G union) := by
  intro s
  have hnumber : SpellsAll (do
      let sign ← perhaps (operator "-")
      let real ← number
      let complex := do
        let plus ← operator "+" <|> operator "-"
        return [Part.build .complexPattern (sign ++ [real, plus, ← number])]
      complex <|> pure (sign ++ [real])) := by
    intro s
    refine .bind (spellsAll_perhaps (spells_operator "-") s) fun t sign hsign => ?_
    refine .bind (spells_number t) fun u real hreal => ?_
    refine .or ?_ (.done (.append hsign hreal))
    have hplus : Spells (operator "+" <|> operator "-") := fun s =>
      .or (spells_operator "+" s) (spells_operator "-" s)
    refine .bind (hplus u) fun v plus hplus => ?_
    refine .bind (spells_number v) fun w imaginary himaginary => ?_
    exact .done (.build trivial (.append hsign (.cons hreal (.cons hplus himaginary))))
  refine .look reads_peek fun _ => ?_
  split
  · exact .bind (spells_splatPattern s) fun _ _ h => .done h
  · exact .bind (spells_splatPattern s) fun _ _ h => .done h
  · exact .bind (spells_patternsIn hG .listPattern (fun _ => trivial) "[" "]" s) fun _ _ h =>
      .done h
  · exact .bind (spells_patternsIn hG .tuplePattern (fun _ => trivial) "(" ")" s) fun _ _ h =>
      .done h
  · have hitem : SpellsAll ((do
        let key ← union
        let colon ← operator ":"
        return key.map (·.as .key) ++ [colon, (← G .casePattern).as .value]) <|>
          return [← splatPattern]) := by
      intro s
      refine .or ?_ (.bind (spells_splatPattern s) fun _ _ h => .done h)
      refine .bind (hunion s) fun t key hkey => ?_
      refine .bind (spells_operator ":" t) fun u colon hcolon => ?_
      refine .bind (hG.spells _ u) fun v value hvalue => ?_
      exact .done (.append (hkey.map .as) (.cons hcolon (.cons hvalue.as .nil)))
    refine .bind (spells_operator "\x7b" s) fun t opening hopening => ?_
    refine .bind (spellsAll_items hitem t) fun u items hitems => ?_
    refine .bind (spells_operator "\x7d" u) fun v closing hclosing => ?_
    exact .done (.build trivial (.append (.append
      (.cons hopening .nil) hitems) (.cons hclosing .nil)))
  · exact .bind (spells_strings s) fun _ _ h => .done h
  · exact hnumber s
  · exact hnumber s
  · exact hnumber s
  · refine .look reads_peekSecond fun _ => .ite ?_ ?_
    · exact .bind (spells_dottedName s) fun _ _ h => .done h
    · exact .bind (spells_keyword "_" s) fun _ _ h => .done h
  · exact .bind (spells_nameOrConstant s) fun _ _ h => .done h
  · exact .bind (spells_nameOrConstant s) fun _ _ h => .done h
  · exact .bind (spells_nameOrConstant s) fun _ _ h => .done h
  · refine .bind (spells_dottedName s) fun t name hname => ?_
    refine .look (reads_atOperator "(") fun _ => .ite ?_ (.done hname)
    refine .bind (spells_operator "(" t) fun u opening hopening => ?_
    refine .bind (spellsAll_commaSeparatedOrNone (hG.spells _) u) fun v items hitems => ?_
    refine .bind (spells_operator ")" v) fun w closing hclosing => ?_
    exact .done (.build trivial (.append (.append
      (.cons hname (.cons hopening .nil)) hitems) (.cons hclosing .nil)))

theorem spellsAll_alternatives {key : Read (List Part)} (hkey : SpellsAll key) :
    SpellsAll (alternatives G key) := by
  intro s
  have hclosed := spellsAll_closedPattern hG hkey
  have hmore : SpellsAll (do
      let bar ← operator "|"
      return bar :: (← closedPattern G key)) := by
    intro s
    refine .bind (spells_operator "|" s) fun t bar hbar => ?_
    refine .bind (hclosed t) fun u pattern hpattern => ?_
    exact .done (.cons hbar hpattern)
  refine .bind (hclosed s) fun t first hfirst => ?_
  refine .bind (reads_many_flatten hmore) fun u more hmore => ?_
  split
  · rename_i hnone
    rw [List.isEmpty_iff.1 hnone] at hmore
    have hfirst := hfirst.append hmore
    rw [List.flatten_nil, List.append_nil] at hfirst
    exact .done hfirst
  · exact .done (.build trivial (.append hfirst hmore))

theorem spellsAll_simplePattern : SpellsAll (simplePattern G) :=
  spellsAll_alternatives hG (spellsAll_alternatives hG fun _ => .fail)

theorem spells_casePattern : Spells (casePattern G) := by
  intro s
  have hkeyword : SpellsAll (do
      let name ← identifier
      let equals ← operator "="
      return [Part.build .keywordPattern ([name, equals] ++ (← simplePattern G))]) := by
    intro s
    refine .bind (spells_identifier s) fun t name hname => ?_
    refine .bind (spells_operator "=" t) fun u equals hequals => ?_
    refine .bind (spellsAll_simplePattern hG u) fun v value hvalue => ?_
    exact .done (.build trivial (.append (.cons hname (.cons hequals .nil)) hvalue))
  refine .bind (.or (hkeyword s) (spellsAll_simplePattern hG s)) fun t pattern hpattern => ?_
  have hfirst : Spelled s t [.build .casePattern pattern] := .build trivial hpattern
  refine reads_extend hfirst fun u p hp => ?_
  refine .bind (spells_keyword "as" u) fun v word hword => ?_
  refine .bind (spells_anyName v) fun w name hname => ?_
  exact .done (.build trivial (.build trivial (.cons hp (.cons hword hname))))

theorem spells_caseClause : Spells (caseClause G) := by
  intro s
  refine .bind (spells_keyword "case" s) fun t word hword => ?_
  refine .bind (spellsAll_commaSeparated (hG.spells _) t) fun u patterns hpatterns => ?_
  have hguard := (spells_ifClause hG false).as .guard
  refine .bind (spellsAll_perhaps hguard u) fun v guard hguard => ?_
  refine .bind (spellsAll_body hG _ v) fun w block hblock => ?_
  exact .done (.as (.build trivial
    (.append (.append (.append (.cons hword .nil) hpatterns) hguard) hblock)))

omit hG in
theorem spells_emptyBlock : Spells emptyBlock := by
  intro s
  refine .bind reads_next fun t l hl => .ite (.done ?_) .fail
  rw [hl]
  exact .leaf trivial

omit hG in
/-- A block from an indentation to its end. -/
theorem spells_indented {inner : Read (List Part)} (hinner : SpellsAll inner) :
    Spells (do
      let opening ← mark .indent
      let inner ← inner
      let block := Part.build .block (inner ++ [← mark .dedent])
      return { block with leading := opening.leading ++ block.leading }) := by
  intro s
  refine .bind (reads_mark .indent) fun t opening hopening => ?_
  refine .bind (hinner t) fun u inner hinner => ?_
  refine .bind (spells_mark .dedent u) fun v closing hclosing => ?_
  exact .done (.behind hopening.1 hopening.2 (.build trivial (.append hinner hclosing)))

theorem spells_matchBlock : Spells (matchBlock G) := by
  intro s
  refine .or ?_ (spells_emptyBlock s)
  exact spells_indented (spellsAll_many1 (spells_caseClause hG)) s

theorem spells_matchStatement : Spells (matchStatement G) := by
  intro s
  refine .bind (spells_keyword "match" s) fun t word hword => ?_
  refine .bind (spellsAll_commaSeparated (spells_element hG) t) fun u subjects hsubjects => ?_
  refine .bind (spells_operator ":" u) fun v colon hcolon => ?_
  refine .bind (spells_matchBlock hG v) fun w block hblock => ?_
  exact .done (.build trivial (.append (.append (.cons hword .nil) (hsubjects.mapRole .subject))
    (.cons hcolon (.cons hblock.as .nil))))

/-! ## Statements and blocks -/

theorem spellsAll_statement : SpellsAll (statement G) := by
  intro s
  have hsimple := spellsAll_simpleStatements hG
  refine .look reads_peek fun _ => ?_
  split
  · exact .bind (spells_ifStatement hG s) fun _ _ h => .done h
  · exact .bind (spells_forStatement hG s) fun _ _ h => .done h
  · exact .bind (spells_whileStatement hG s) fun _ _ h => .done h
  · exact .bind (spells_tryStatement hG s) fun _ _ h => .done h
  · exact .bind (spells_withStatement hG s) fun _ _ h => .done h
  · exact .bind (spells_functionDefinition hG s) fun _ _ h => .done h
  · exact .bind (spells_classDefinition hG s) fun _ _ h => .done h
  · exact .bind (spells_decoratedDefinition hG s) fun _ _ h => .done h
  · exact .or (.bind (spells_matchStatement hG s) fun _ _ h => .done h) (hsimple s)
  · refine .look reads_peekSecond fun _ => ?_
    split
    · exact .bind (spells_functionDefinition hG s) fun _ _ h => .done h
    · exact .bind (spells_forStatement hG s) fun _ _ h => .done h
    · exact .bind (spells_withStatement hG s) fun _ _ h => .done h
    · exact hsimple s
  · exact hsimple s

omit hG in
theorem spellsAll_unparsedLine : SpellsAll unparsedLine := by
  intro s
  refine .bind (spellsAll_many (fun s => .bind reads_next fun t l hl => ?_) s)
    fun t words hwords => ?_
  · -- only a name becomes an identifier
    rw [hl]
    split
    · rename_i kind text hkind
      refine .done (.leaf ?_)
      split
      · exact trivial
      · cases kind with
        | name => exact ⟨text, hkind⟩
        | _ => exact trivial
    · exact .fail
  split
  · rename_i hnone
    rw [List.isEmpty_iff.1 hnone] at hwords
    have hbreak : Spells (mark .newline <|> mark .indent) := fun s =>
      .or (spells_mark .newline s) (spells_mark .indent s)
    refine .bind (hbreak t) fun u ending hending => ?_
    exact .done (.append hwords hending)
  · refine .bind (spellsAll_perhaps (spells_mark .newline) t) fun u ending hending => ?_
    exact .done (.append (.build trivial hwords) hending)

theorem spellsAll_statements : SpellsAll (statements G) := by
  intro s
  have hline : SpellsAll (statement G <|> unparsedLine) := fun s =>
    .or (spellsAll_statement hG s) (spellsAll_unparsedLine s)
  exact .bind (reads_many_flatten hline) fun _ _ h => .done h

theorem spells_suite : Spells (suite G) := by
  intro s
  refine .look reads_peek fun _ => ?_
  split
  · exact spells_indented (spellsAll_statements hG) s
  · exact spells_emptyBlock s
  · refine .bind (spellsAll_simpleStatements hG s) fun t ps hps => ?_
    exact .done (.build trivial hps)

omit hG in
theorem reads_suite_kind (s : List Lexeme) :
    Reads s (suite G) fun _ p => p.isKind .block = true := by
  refine .look reads_peek fun _ => ?_
  split
  · exact .after fun _ _ => .after fun _ _ => .after fun _ _ => .done (isKind_build _ _)
  · exact .after fun _ _ => .ite (.done (beq_self_eq_true Kind.block)) .fail
  · exact .after fun _ _ => .done (isKind_build _ _)

/-! ## The whole grammar -/

theorem spell_unfoldRule : Rules.Spell (unfoldRule G) where
  spells
    | .expression inClause => spells_expression hG inClause
    | .disjunction inClause => spells_disjunction hG inClause
    | .negation inClause => spells_negation hG inClause
    | .binary level => spells_binary hG level
    | .typeExpression => spells_typeExpression hG
    | .assigned => spells_assigned hG
    | .suite => spells_suite hG
    | .casePattern => spells_casePattern hG
  operand := givesConstruct_disjunction
  suite := reads_suite_kind

end

theorem spell_rules (depth : Nat) : (rules depth).Spell := by
  induction depth with
  | zero => exact ⟨fun _ _ => .fail, fun _ _ => .fail, fun _ => .fail⟩
  | succ depth ih => exact spell_unfoldRule ih

/-- The tree of a text is made of its lexemes. -/
theorem spelled_parse (text : String) :
    ∃ rest ps, Spelled (lexemes (words text)) rest ps ∧
      (parse text).children = ps.flatMap fun p => p.leading ++ p.node.toList := by
  let ls := lexemes (words text)
  let reader : Read (List Part) := do
    let inner ← many (statement (rules (ls.length + 1)) <|> unparsedLine <|>
      return [← mark .dedent])
    return inner.flatten ++ (← perhaps (mark .endOfText))
  have hreader : SpellsAll reader := by
    intro s
    have hline : SpellsAll (statement (rules (ls.length + 1)) <|> unparsedLine <|>
        return [← mark .dedent]) := fun s =>
      .or (spellsAll_statement (spell_rules _) s) (.or (spellsAll_unparsedLine s)
        (.bind (spells_mark .dedent s) fun _ _ h => .done h))
    refine .bind (reads_many_flatten hline) fun t inner hinner => ?_
    refine .bind (spellsAll_perhaps (spells_mark .endOfText) t) fun u ending hending => ?_
    exact .done (.append hinner hending)
  have hparse : (parse text).children =
      (((reader ⟨ls, ls.length⟩).map (·.1)).getD []).flatMap
        fun p => p.leading ++ p.node.toList := rfl
  cases hread : reader ⟨ls, ls.length⟩ with
  | none =>
    rw [hread] at hparse
    exact ⟨ls, [], .nil, hparse⟩
  | some found =>
    obtain ⟨ps, i⟩ := found
    rw [hread] at hparse
    exact ⟨i.rest, ps, hreader ls ⟨ls, ls.length⟩ ps i rfl hread, hparse⟩

end CrossRef.Syntax
