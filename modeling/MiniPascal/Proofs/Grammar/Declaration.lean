import MiniPascal.Proofs.Grammar.Statement

/-!
# Rules for declarations and blocks

The rules for groups, sections, parameters, procedures and blocks read the wordings of their names.
Every loop among them goes on as long as one kind of lexeme stands in sight, and that kind begins
each item and nothing that may follow the items.
-/

set_option autoImplicit false
set_option relaxedAutoImplicit false

namespace MiniPascal

namespace Wording

/-- A single procedure. -/
def Procedure : Wording Declaration := fun x d ↦ Procedures x [d]

theorem group_begins : Group.Begins [] :=
  ⟨_, _, .mk Position.start (.one (.mk "" Position.start)) (.integer Position.start),
    List.nil_prefix⟩

theorem closedGroup_begins : ClosedGroup.Begins [] := by
  obtain ⟨x, declared, hgroup, -⟩ := group_begins
  exact ⟨_, declared, .mk Position.start hgroup, List.nil_prefix⟩

theorem typeName_begins : TypeName.Begins [] := ⟨_, _, .integer Position.start, List.nil_prefix⟩

theorem many_begins {α : Type} (item : Wording α) : (Many item).Begins [] :=
  ⟨[], [], .nil, List.nil_prefix⟩

theorem block_begins : Block.Begins [] := by
  obtain ⟨x, body, hbody, -⟩ := compound_begins
  exact ⟨_, _, .mk (.mk .nil) .nil hbody, List.nil_prefix⟩

/-- Names and all that is built around them begin with an identifier. -/
theorem closedGroup_starts : ClosedGroup.StartsIn (·.kind = .identifier) := by
  rintro x declared ⟨p, ⟨q, hnames, htype⟩⟩
  cases hnames with
  | one hname =>
    obtain ⟨name, r⟩ := hname
    exact ⟨_, _, rfl, rfl⟩
  | more s hname _ =>
    obtain ⟨name, r⟩ := hname
    exact ⟨_, _, rfl, rfl⟩

theorem section_starts : Section.StartsIn (·.kind = .keyword .var) := by
  rintro x declared ⟨p, _, _⟩
  exact ⟨_, _, rfl, rfl⟩

theorem procedure_starts : Procedure.StartsIn (·.kind = .keyword .procedure) := by
  intro x d hprocedure
  change Procedures x [d] at hprocedure
  cases hprocedure
  exact ⟨_, _, rfl, rfl⟩

theorem compound_starts : Compound.StartsIn (·.kind = .keyword .beginBlock) := by
  rintro x inner ⟨p, q, _⟩
  exact ⟨_, _, rfl, rfl⟩

/-- A group is its names and, behind a colon, their type. -/
theorem group_iff {x : List Lexeme} {declared : List VariableDeclaration} :
    (Separated .comma Name).Then (fun names ↦ (Single (·.token.kind = .mark .colon)).Then fun _ ↦
        TypeName.Map fun typeName ↦ names.map fun name ↦ ⟨name, typeName⟩) x declared ↔
      Group x declared := by
  constructor
  · rintro ⟨x, names, _, hnames, ⟨_, ⟨token, p⟩, y, ⟨rfl, hcolon⟩, ⟨typeName, htype, rfl⟩, rfl⟩,
      rfl⟩
    obtain rfl := Token.eq_mark_of_kind hcolon
    exact .mk p hnames htype
  · rintro ⟨p, hnames, htype⟩
    exact ⟨_, _, _, hnames, ⟨_, _, _, ⟨rfl, rfl⟩, ⟨_, htype, rfl⟩, rfl⟩, rfl⟩

theorem closedGroup_iff {x : List Lexeme} {declared : List VariableDeclaration} :
    Group.Then (fun declared ↦ Closing (.mark .semicolon) declared) x declared ↔
      ClosedGroup x declared := by
  constructor
  · rintro ⟨x, declared, _, hgroup, ⟨rfl, ⟨token, p⟩, hkind, rfl⟩, rfl⟩
    obtain rfl := Token.eq_mark_of_kind hkind
    exact .mk p hgroup
  · rintro ⟨p, hgroup⟩
    exact ⟨_, _, _, hgroup, ⟨rfl, _, rfl, rfl⟩, rfl⟩

/-- The procedures and the body of a block. -/
def Remainder (declared : List VariableDeclaration) : Wording MiniPascal.Block :=
  (Many Procedure).Then fun inner ↦ Compound.Map fun body ↦ ⟨declared.map .var ++ inner, body⟩

theorem remainder_begins (declared : List VariableDeclaration) : (Remainder declared).Begins [] :=
  then_begins (many_begins _) fun _ _ _ ↦ map_begins _ compound_begins

theorem remainder_starts (declared : List VariableDeclaration) : (Remainder declared).StartsIn
    fun token ↦ token.kind = .keyword .procedure ∨ token.kind = .keyword .beginBlock := by
  rintro x block ⟨y, inner, z, hinner, ⟨body, hbody, rfl⟩, rfl⟩
  cases hinner with
  | nil =>
    obtain ⟨lexeme, z, rfl, hkind⟩ := compound_starts _ _ hbody
    exact ⟨lexeme, z, rfl, .inr hkind⟩
  | cons hfirst _ =>
    obtain ⟨lexeme, y, rfl, hkind⟩ := procedure_starts _ _ hfirst
    exact ⟨lexeme, _, rfl, .inl hkind⟩

theorem many_procedure (x : List Lexeme) (ds : List Declaration) :
    Many Procedure x ds ↔ Procedures x ds := by
  constructor
  · intro hmany
    induction hmany with
    | nil => exact .nil
    | @cons y z d ds hfirst _ induct =>
      change Procedures y [d] at hfirst
      cases hfirst with
      | cons name p q r s hparameters hdeclared hinner hbody hnone =>
        cases hnone
        have hall := Procedures.cons name p q r s hparameters hdeclared hinner hbody induct
        simpa using hall
  · intro hprocedures
    induction hprocedures with
    | nil => exact .nil
    | cons name p q r s hparameters hdeclared hinner hbody _ _ induct =>
      have hone : Procedure _ _ := .cons name p q r s hparameters hdeclared hinner hbody .nil
      have hall := Many.cons hone induct
      simpa using hall

theorem block_iff {x : List Lexeme} {block : MiniPascal.Block} :
    Variables.Then Remainder x block ↔ Block x block := by
  constructor
  · rintro ⟨v, declared, _, hdeclared, ⟨w, inner, y, hinner, ⟨body, hbody, rfl⟩, rfl⟩, rfl⟩
    rw [← List.append_assoc]
    exact .mk hdeclared ((many_procedure w inner).1 hinner) hbody
  · rintro @⟨v, w, y, declared, inner, body, hdeclared, hinner, hbody⟩
    rw [List.append_assoc]
    exact ⟨v, declared, _, hdeclared,
      ⟨w, inner, y, (many_procedure w inner).2 hinner, ⟨body, hbody, rfl⟩, rfl⟩, rfl⟩

/-- What stands behind the name of a procedure. -/
def Defined (name : String) (line : Nat) : Wording MiniPascal.Declaration :=
  Parameters.Then fun declared ↦ (Single (·.token.kind = .mark .semicolon)).Then fun _ ↦
    Block.Then fun block ↦ Closing (.mark .semicolon)
      (.procedure ⟨name, line, declared⟩ block.declarations block.body)

theorem defined_begins (name : String) (line : Nat) : (Defined name line).Begins [] :=
  then_begins ⟨[], [], .none, List.nil_prefix⟩ fun _ _ _ ↦
    then_begins (single_begins _) fun _ _ _ ↦ then_begins block_begins fun _ _ _ ↦
      closing_begins _ _

theorem procedure_iff {x : List Lexeme} {d : Declaration} :
    (Single (·.token.kind = .keyword .procedure)).Then
        (fun lexeme ↦ Name.Then fun found ↦ Defined found.name lexeme.position.line) x d ↔
      Procedure x d := by
  constructor
  · rintro ⟨_, ⟨token, p⟩, _, ⟨rfl, hkind⟩, ⟨_, _, _, ⟨name, q⟩, ⟨x, declared, _, hparameters,
      ⟨_, ⟨token', r⟩, _, ⟨rfl, hkind'⟩, ⟨_, block, _, hblock, ⟨rfl, ⟨token'', s⟩, hkind'', rfl⟩,
        rfl⟩, rfl⟩, rfl⟩, rfl⟩, rfl⟩
    obtain rfl := Token.eq_keyword_of_kind hkind
    obtain rfl := Token.eq_mark_of_kind hkind'
    obtain rfl := Token.eq_mark_of_kind hkind''
    obtain ⟨hvariables, hinner, hbody⟩ := hblock
    exact .cons name p q r s hparameters hvariables hinner hbody .nil
  · intro hprocedure
    change Procedures x [d] at hprocedure
    cases hprocedure with
    | cons name p q r s hparameters hvariables hinner hbody hnone =>
      cases hnone
      exact ⟨_, _, _, ⟨rfl, rfl⟩, ⟨_, _, _, .mk name q, ⟨_, _, _, hparameters, ⟨_, _, _,
        ⟨rfl, rfl⟩, ⟨_, _, _, .mk hvariables hinner hbody, ⟨rfl, _, rfl, rfl⟩, rfl⟩, rfl⟩, rfl⟩,
        rfl⟩, rfl⟩

end Wording

namespace Rule

variable {limit levels : Nat} {cursor : Cursor}

/-! ### Groups -/

theorem reads_scalarType (hsound : cursor.Sound) :
    Reads limit 0 nothing Wording.TypeName scalarType cursor := by
  refine Reads.currentLine hsound (Reads.peek hsound ?_)
  have hkeyword (word : Keyword) (hword : word = .integer ∨ word = .real)
      (htoken : cursor.current.token = .keyword word) :
      Reads limit 0 nothing Wording.TypeName
        (advance >>= fun _ ↦ pure ⟨word.text, cursor.current.position.line⟩) cursor := by
    have hgoing : cursor.current.token ≠ .eof := by
      rw [htoken]
      exact Token.noConfusion
    refine Reads.weaken (Nat.zero_le 1) (Reads.of_agrees ?_ (fun _ h ↦ h) ?_
      (Reads.afterCurrent hsound hgoing ?_ fun later hlater _ ↦ Reads.pure hlater _))
    · rintro x m ⟨_, rfl, rfl, rfl⟩
      obtain ⟨⟨token, p⟩, upcoming, ending, depth⟩ := cursor
      simp only at htoken
      subst htoken
      rcases hword with rfl | rfl
      · exact .integer p
      · exact .real p
    · intro y m z hwritten _ hhead
      cases hwritten with
      | integer p | real p =>
        have hcurrent := Option.some.inj hhead
        rw [← hcurrent] at htoken ⊢
        cases htoken
        exact ⟨[], rfl, rfl, rfl⟩
    · exact ⟨[], _, ⟨rfl, rfl⟩, List.nil_prefix⟩
  split
  · next htoken => exact hkeyword .integer (.inl rfl) htoken
  · next htoken => exact hkeyword .real (.inr rfl) htoken
  · next hinteger hreal =>
    refine Reads.unexpected hsound _ Wording.typeName_begins ?_
    intro y m z hwritten _ hstarts
    cases hwritten with
    | integer p =>
      rw [List.nil_append, List.singleton_append, List.cons_prefix_cons] at hstarts
      exact hinteger (congrArg Lexeme.token hstarts.1)
    | real p =>
      rw [List.nil_append, List.singleton_append, List.cons_prefix_cons] at hstarts
      exact hreal (congrArg Lexeme.token hstarts.1)

theorem reads_group (hsound : cursor.Sound) :
    Reads limit 0 nothing Wording.Group group cursor := by
  have hbegins (names : List Mention) :
      ((Wording.Single (·.token.kind = .mark .colon)).Then fun _ ↦ Wording.TypeName.Map
        fun typeName ↦ names.map fun name ↦ (⟨name, typeName⟩ : VariableDeclaration)).Begins [] :=
    Wording.then_begins (Wording.single_begins _) fun _ _ _ ↦
      Wording.map_begins _ Wording.typeName_begins
  have hnames : Reads limit 0 (fun token ↦ nothing token ∨ token.kind = .mark .comma)
      (Wording.Separated .comma Wording.Name) (separated (.mark .comma) mention) cursor :=
    Reads.separated id Wording.name_begins
      (fun later hlater _ ↦ Reads.mention hlater) hsound (Nat.le_refl cursor.depth)
  refine Reads.of_iff (fun _ _ ↦ Wording.group_iff) (Reads.bind 0 hnames ?_
    (fun _ names _ ↦ hbegins names) ?_ (fun _ _ _ ↦ Nat.zero_le _))
  · intro x names later hmoves _ _
    refine Reads.weaken (Nat.zero_le 1) (Reads.afterKind hmoves.sound Token.Kind.noConfusion
      (fun _ ↦ Wording.map_begins _ Wording.typeName_begins) fun _ last hlast _ ↦ ?_)
    exact Reads.map _ (reads_scalarType hlast)
  · rintro names y ds z ⟨_, lexeme, _, ⟨rfl, hcolon⟩, _, rfl⟩ -
    rw [List.append_assoc, List.singleton_append, stops_cons, hcolon]
    rintro (hnothing | hcomma)
    · exact hnothing
    · cases hcomma

theorem reads_closedGroup (hsound : cursor.Sound) :
    Reads limit 0 nothing Wording.ClosedGroup closedGroup cursor :=
  Reads.of_iff (fun _ _ ↦ Wording.closedGroup_iff)
    (Reads.closed id (reads_group hsound) Token.Kind.noConfusion fun _ _ ↦ id)

/-! ### Variables -/

theorem reads_section (hsound : cursor.Sound) (htoken : cursor.current.token.kind = .keyword .var) :
    Reads limit 0 (·.kind = .identifier) Wording.Section variableSection cursor := by
  have hgoing := Token.ne_eof_of_kind htoken Token.Kind.noConfusion
  have hgroups (later : Cursor) (hlater : later.Sound) :
      Reads limit 0 (fun token ↦ nothing token ∨ token.kind = .identifier)
        (Wording.ClosedGroup.Followed Wording.ClosedGroup fun first others ↦
          (first :: others).flatten)
        (closedGroup >>= fun first ↦ repeatOn (onKind .identifier) (fun _ ↦ closedGroup) >>=
          fun others ↦ pure (first :: others).flatten) later := by
    refine Reads.followed Wording.closedGroup_starts (fun _ _ ↦ id) (reads_closedGroup hlater)
      (fun _ _ _ ↦ Nat.zero_le _) fun _ _ last hmoves _ _ ↦ ?_
    exact Reads.repeatOnKind Token.Kind.noConfusion (fun _ _ ↦ id) Wording.closedGroup_starts
      (fun _ hinner _ _ ↦ reads_closedGroup hinner) hmoves.sound (Nat.le_refl last.depth)
  refine Reads.weaken (Nat.zero_le 1) (Reads.of_agrees ?_ ?_ ?_
    (Reads.afterCurrent hsound hgoing ?_ fun later hlater _ ↦ hgroups later hlater))
  · rintro x declared ⟨_, rfl, y, first, z, hfirst, ⟨others, hothers, rfl⟩, rfl⟩
    obtain ⟨⟨token, p⟩, upcoming, ending, depth⟩ := cursor
    obtain rfl := Token.eq_keyword_of_kind htoken
    exact .mk p hfirst hothers
  · exact fun token hmore ↦ hmore.resolve_left id
  · rintro y declared z ⟨p, hfirst, hothers⟩ - hhead
    rw [← Option.some.inj hhead]
    exact ⟨_, rfl, _, _, _, hfirst, ⟨_, hothers, rfl⟩, rfl⟩
  · exact Wording.then_begins Wording.closedGroup_begins fun _ _ _ ↦
      Wording.map_begins _ (Wording.many_begins _)

theorem reads_variables (hsound : cursor.Sound) :
    Reads limit 0 (fun token ↦ token.kind = .identifier ∨ token.kind = .keyword .var)
      Wording.Variables variableSections cursor := by
  have hother (token : Token) (hkind : token.kind = .keyword .var) :
      ¬ token.kind = .identifier := by
    rw [hkind]
    exact Token.Kind.noConfusion
  have hsections : Reads limit 0
      (fun token ↦ token.kind = .identifier ∨ token.kind = .keyword .var)
      (Wording.Many Wording.Section)
      (repeatOn (onKind (.keyword .var)) fun _ ↦ variableSection) cursor :=
    Reads.repeatOnKind Token.Kind.noConfusion hother Wording.section_starts
      (fun later hlater _ ↦ reads_section hlater) hsound (Nat.le_refl cursor.depth)
  refine Reads.of_iff (fun x declared ↦ ?_) (Reads.map List.flatten hsections)
  constructor
  · rintro ⟨sections, hmany, rfl⟩
    exact .mk hmany
  · rintro ⟨hmany⟩
    exact ⟨_, hmany, rfl⟩

/-! ### Procedures and blocks -/

theorem reads_parameters (hsound : cursor.Sound) :
    Reads limit 0 (·.kind = .mark .leftParen) Wording.Parameters parameters cursor := by
  refine Reads.peek hsound ?_
  by_cases hparen : cursor.current.token.kind = .mark .leftParen
  · rw [if_pos hparen]
    have hgoing := Token.ne_eof_of_kind hparen Token.Kind.noConfusion
    have hgroups (later : Cursor) (hlater : later.Sound) :
        Reads limit 0 (fun token ↦ nothing token ∨ token.kind = .mark .semicolon)
          (Wording.Separated .semicolon Wording.Group) (separated (.mark .semicolon) group) later :=
      Reads.separated id Wording.group_begins (fun last hlast _ ↦ reads_group hlast) hlater
        (Nat.le_refl later.depth)
    refine Reads.weaken (Nat.zero_le 1) (Reads.of_agrees ?_ (fun _ ↦ False.elim) ?_
      (Reads.afterCurrent hsound hgoing ?_ fun later hlater _ ↦
        Reads.closed List.flatten (hgroups later hlater) Token.Kind.noConfusion ?_))
    · rintro x declared ⟨_, rfl, y, groups, _, hgroups, ⟨rfl, ⟨token', q⟩, hclose, rfl⟩, rfl⟩
      obtain ⟨⟨token, p⟩, upcoming, ending, depth⟩ := cursor
      obtain rfl := Token.eq_mark_of_kind hparen
      obtain rfl := Token.eq_mark_of_kind hclose
      exact .listed p q hgroups
    · rintro y declared z hwritten hstops hhead
      cases hwritten with
      | none => exact absurd hparen (hstops _ hhead)
      | listed p q hgroups =>
        rw [← Option.some.inj hhead]
        exact ⟨_, rfl, _, _, _, hgroups, ⟨rfl, _, rfl, rfl⟩, rfl⟩
    · obtain ⟨x, declared, hgroup, -⟩ := Wording.group_begins
      exact Wording.then_begins ⟨x, _, .one hgroup, List.nil_prefix⟩
        fun _ groups _ ↦ Wording.closing_begins _ groups.flatten
    · intro token hclose
      rw [Token.eq_mark_of_kind hclose]
      rintro (hnothing | hsemicolon)
      · exact hnothing
      · cases hsemicolon
  · rw [if_neg hparen]
    refine Reads.of_agrees ?_ (fun _ ↦ False.elim) ?_ (Reads.pure hsound [])
    · rintro x declared ⟨rfl, rfl⟩
      exact .none
    · rintro y declared z hwritten - hhead
      cases hwritten with
      | none => exact ⟨rfl, rfl⟩
      | listed p q hgroups =>
        rw [← Option.some.inj hhead] at hparen
        exact absurd rfl hparen

/-- What stands behind the variables of a block, given that procedures are read from a depth on. -/
theorem reads_remainder {procedure : Rule Declaration} (declared : List VariableDeclaration)
    (hlevels : limit ≤ cursor.depth + levels) (hsound : cursor.Sound)
    (hprocedure : ∀ later : Cursor, later.Sound → cursor.depth ≤ later.depth →
      Reads limit 0 nothing Wording.Procedure procedure later) :
    Reads limit 0 nothing (Wording.Remainder declared)
      (repeatOn (onKind (.keyword .procedure)) (fun _ ↦ procedure) >>= fun inner ↦
        compound limit levels >>= fun body ↦ pure ⟨declared.map .var ++ inner, body⟩) cursor := by
  have hprocedures : Reads limit 0
      (fun token ↦ nothing token ∨ token.kind = .keyword .procedure)
      (Wording.Many Wording.Procedure)
      (repeatOn (onKind (.keyword .procedure)) fun _ ↦ procedure) cursor :=
    Reads.repeatOnKind Token.Kind.noConfusion (fun _ _ ↦ id) Wording.procedure_starts
      (fun later hlater hdepth _ ↦ hprocedure later hlater hdepth) hsound
      (Nat.le_refl cursor.depth)
  refine Reads.bind 0 hprocedures ?_ (fun _ _ _ ↦ Wording.map_begins _ Wording.compound_begins) ?_
    (fun _ _ _ ↦ Nat.zero_le _)
  · intro x inner later hmoves hsame _
    exact Reads.map _ (reads_compound (hsame ▸ hlevels) hmoves.sound)
  · rintro inner y block z ⟨body, hwritten, rfl⟩ -
    obtain ⟨lexeme, x, rfl, hkind⟩ := Wording.compound_starts _ _ hwritten
    rw [List.cons_append, stops_cons, hkind]
    rintro (hnothing | hprocedure)
    · exact hnothing
    · cases hprocedure

theorem reads_blockOf {procedure : Rule Declaration} (hlevels : limit ≤ cursor.depth + levels)
    (hsound : cursor.Sound)
    (hprocedure : ∀ later : Cursor, later.Sound → cursor.depth ≤ later.depth →
      Reads limit 0 nothing Wording.Procedure procedure later) :
    Reads limit 0 nothing Wording.Block (blockOf limit levels procedure) cursor := by
  refine Reads.of_iff (fun _ _ ↦ Wording.block_iff) (Reads.bind 0 (reads_variables hsound) ?_
    (fun _ declared _ ↦ Wording.remainder_begins declared) ?_ (fun _ _ _ ↦ Nat.zero_le _))
  · intro x declared later hmoves hsame _
    exact reads_remainder declared (hsame ▸ hlevels) hmoves.sound
      fun last hlast hdepth ↦ hprocedure last hlast (hsame ▸ hdepth)
  · intro declared y block z hwritten _
    obtain ⟨lexeme, x, rfl, hkind⟩ := Wording.remainder_starts declared _ _ hwritten
    rw [List.cons_append, stops_cons]
    rcases hkind with hkind | hkind <;> simp [hkind]

/-- What stands behind the name of a procedure, given that procedures inside it are read. -/
theorem reads_definition {procedure : Rule Declaration} (name : String) (line : Nat)
    (hlevels : limit ≤ cursor.depth + levels) (hsound : cursor.Sound)
    (hprocedure : ∀ later : Cursor, later.Sound → cursor.depth ≤ later.depth →
      Reads limit 0 nothing Wording.Procedure procedure later) :
    Reads limit 0 nothing (Wording.Defined name line)
      (parameters >>= fun declared ↦ expect (.mark .semicolon) >>= fun _ ↦
        blockOf limit levels procedure >>= fun block ↦ expect (.mark .semicolon) >>= fun _ ↦
          pure (.procedure ⟨name, line, declared⟩ block.declarations block.body))
      cursor := by
  have hbegins (declared : List VariableDeclaration) : (Wording.Block.Then fun block ↦
      Wording.Closing (.mark .semicolon)
        (Declaration.procedure ⟨name, line, declared⟩ block.declarations block.body)).Begins [] :=
    Wording.then_begins Wording.block_begins fun _ _ _ ↦ Wording.closing_begins _ _
  refine Reads.bind 0 (reads_parameters hsound) ?_ ?_ ?_ (fun _ _ _ ↦ Nat.zero_le _)
  · intro x declared later hmoves hsame _
    refine Reads.weaken (Nat.zero_le 1) (Reads.afterKind hmoves.sound Token.Kind.noConfusion
      (fun _ ↦ hbegins declared) fun lexeme last hlast hsame' ↦ ?_)
    have hlast' : last.depth = cursor.depth := hsame'.trans hsame
    refine Reads.closed
      (fun block : Block ↦
        Declaration.procedure ⟨name, line, declared⟩ block.declarations block.body)
      (reads_blockOf (hlast' ▸ hlevels) hlast fun end' hend hdepth ↦ ?_) Token.Kind.noConfusion
      (fun _ _ ↦ id)
    exact hprocedure end' hend (hlast' ▸ hdepth)
  · intro x declared _
    exact Wording.then_begins (Wording.single_begins _) fun _ _ _ ↦ hbegins declared
  · rintro declared y d z ⟨_, lexeme, _, ⟨rfl, hkind⟩, _, rfl⟩ -
    rw [List.append_assoc, List.singleton_append, stops_cons, hkind]
    intro hparen
    cases hparen

theorem reads_procedure (hlevels : limit ≤ cursor.depth + levels) (hsound : cursor.Sound) :
    Reads limit 0 nothing Wording.Procedure (procedure limit levels) cursor := by
  induction levels generalizing cursor with
  | zero => exact .atLimit hsound hlevels rfl
  | succ levels induct =>
    rw [procedure]
    refine Reads.nested hsound fun _ ↦ ?_
    have hdeeper : limit ≤ cursor.depth + 1 + levels := by omega
    refine Reads.of_iff (fun _ _ ↦ Wording.procedure_iff)
      (Reads.afterKind (hsound.withDepth (cursor.depth + 1)) Token.Kind.noConfusion
        (fun _ ↦ Wording.then_begins Wording.name_begins fun _ _ _ ↦ Wording.defined_begins _ _)
        fun lexeme later hlater hsame ↦ ?_)
    refine Reads.afterName hlater (fun _ ↦ Wording.defined_begins _ _)
      fun found last hlast hsame' ↦ ?_
    have hlast' : last.depth = cursor.depth + 1 := hsame'.trans hsame
    exact reads_definition found.name lexeme.position.line (hlast' ▸ hdeeper) hlast
      fun end' hend hdepth ↦ induct (by omega) hend

theorem reads_block (hlevels : limit ≤ cursor.depth + levels) (hsound : cursor.Sound) :
    Reads limit 0 nothing Wording.Block (block limit levels) cursor := by
  refine reads_blockOf hlevels hsound fun later hlater hdepth ↦ reads_procedure ?_ hlater
  omega

end Rule

end MiniPascal
