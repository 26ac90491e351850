import EnglishScript.Proofs.DecimalReading
import EnglishScript.Proofs.LiteralQuote
import EnglishScript.Proofs.NormalForm
import EnglishScript.Proofs.ReadBack
import EnglishScript.Proofs.SourceTree

namespace EnglishScript

theorem Token.Is.quote_not_mem {t : Token} (h : t.Is .string) : Text.quote ∉ t.lexeme := by
  intro hmem
  have hbyte : Lexer.isStringByte Text.quote = true := h.2 _ hmem
  exact absurd hbyte (by decide)

namespace ReadBack

theorem strip_append {α : Type} [BEq α] [LawfulBEq α] (front s : List α) : strip front (front ++ s) = some s := by
  simp [strip]

theorem takeWhile_append_stop {α : Type} {p : α → Bool} {s rest : List α} (hs : ∀ a ∈ s, p a = true)
    (hrest : ∀ a ∈ rest.head?, p a = false) : (s ++ rest).takeWhile p = s := by
  rw [Text.takeWhile_stop hrest, List.takeWhile_eq_self_iff.mpr hs]

theorem dropWhile_append_stop {α : Type} {p : α → Bool} {s rest : List α} (hs : ∀ a ∈ s, p a = true)
    (hrest : ∀ a ∈ rest.head?, p a = false) : (s ++ rest).dropWhile p = rest := by
  rw [Text.dropWhile_stop hrest, List.dropWhile_eq_nil_iff.mpr hs, List.nil_append]

/-- The text cannot go on with a word or a number. -/
def Ends (rest : Text) : Prop :=
  ∀ b ∈ rest.head?, Text.isWord b = false ∧ Text.isNumeric b = false

theorem symbol_mem_operators {form : Form} {op : Token} {kind : Kind} (hk : kind ∈ form.operators) (hop : op.Is kind) :
    (form.symbol op, form, op.kind) ∈ operators := by
  obtain ⟨hkind, hlexeme⟩ := hop
  cases form <;> simp only [Form.operators, List.mem_cons, List.not_mem_nil, or_false] at hk
  · rcases hk with rfl | rfl | rfl | rfl <;> (rw [Form.symbol, hlexeme, hkind]; decide)
  · rcases hk with rfl | rfl | rfl | rfl <;> (simp only [Form.symbol, hkind]; decide)
  · rcases hk with rfl | rfl <;> (simp only [Form.symbol, hkind]; decide)

theorem operator_symbol {form : Form} {op : Token} {kind : Kind} (hk : kind ∈ form.operators) (hop : op.Is kind)
    (rest : Text) :
    operator (utf8 " " ++ form.symbol op ++ utf8 " " ++ rest) = some (form, op.bare (form.symbol op), rest) := by
  have hmem := symbol_mem_operators hk hop
  have hspaceless : (operators.all fun x => x.1.all (· != Text.space)) = true := by decide
  have hbytes : ∀ b ∈ form.symbol op, (b != Text.space) = true :=
    List.all_eq_true.mp (List.all_eq_true.mp hspaceless _ hmem)
  have hlookup : operators.lookup (form.symbol op) = some (form, op.kind) :=
    (show ∀ x ∈ operators, operators.lookup x.1 = some x.2 by decide) _ hmem
  have hfirst : strip [Text.space] (utf8 " " ++ form.symbol op ++ utf8 " " ++ rest) =
      some (form.symbol op ++ (utf8 " " ++ rest)) := by
    rw [List.append_assoc, List.append_assoc]
    exact strip_append (utf8 " ") _
  have hword : (form.symbol op ++ (utf8 " " ++ rest)).takeWhile (· != Text.space) = form.symbol op :=
    takeWhile_append_stop hbytes (by rintro _ ⟨⟩; rfl)
  have hsecond : strip [Text.space] (utf8 " " ++ rest) = some rest := strip_append (utf8 " ") rest
  simp only [operator, hfirst, Option.bind_eq_bind, Option.bind_some, hword, hlookup, List.drop_left, hsecond]
  rfl

theorem literal_own_quote {t : Token} {value : Text} (ht : t.Is .string) (hvalue : value = t.lexeme)
    (haccepted : Node.Accepted (.expr (.string t value))) (rest : Text) :
    literal (value ++ [Text.quote] ++ rest) = some (.string (t.bare value) value, rest) := by
  have hquote := hvalue ▸ ht.quote_not_mem
  have hend : Python.Literal.escapesEnd value = false := by
    cases h : Python.Literal.escapesEnd value with
    | false => rfl
    | true => simp [Node.Accepted, Node.refusal?, Evaluation.literal, h] at haccepted
  have hclose := Python.closing_own_quote hquote (Python.trailing_even hend) rest
  have hkind : t.bare value = token .string value := by rw [Token.bare, ht.1, token]
  simp [literal, hclose, hkind]

theorem number_text {t : Token} {value : Float} (ht : t.Is .number) (hvalue : readFloat t.lexeme = .ok value)
    {rest : Text} (hrest : Ends rest) :
    number (pythonFloat value ++ rest) = some (.number (t.bare []) value, rest) := by
  obtain ⟨b, hread, hpos⟩ := Text.IsNumeral.reading ht.2 hvalue
  have hnumeric := (isText_pythonFloat hread hpos).numeric
  have hkind : t.bare [] = token .number [] := by rw [Token.bare, ht.1, token]
  simp only [number, takeWhile_append_stop hnumeric fun b hb => (hrest b hb).2, readFloat_pythonFloat hread hpos, hkind]
  simp [Except.toOption]

theorem name_lexeme {t : Token} (ht : t.Is .identifier) {rest : Text} (hrest : Ends rest) :
    name (t.lexeme ++ rest) = (.var (t.bare t.lexeme), rest) := by
  obtain ⟨c, more, hlexeme, hc, hmore⟩ := ht.2.1
  have hword : ∀ b ∈ t.lexeme, Text.isWord b = true := by
    rw [hlexeme]
    exact List.forall_mem_cons.mpr ⟨by simp [Text.isWord, hc], hmore⟩
  have hkind : t.bare t.lexeme = token .identifier t.lexeme := by rw [Token.bare, ht.1, token]
  simp [name, takeWhile_append_stop hword fun b hb => (hrest b hb).1, hkind]

theorem ends_space (rest : Text) : Ends (utf8 " " ++ rest) := by
  rintro _ ⟨⟩
  decide

theorem ends_close (rest : Text) : Ends (utf8 ")" ++ rest) := by
  rintro _ ⟨⟩
  decide

theorem expression_digit {c : UInt8} (h : Text.isDigit c = true) (fuel : Nat) (s : Text) :
    expression (fuel + 1) (c :: s) = number (c :: s) := by
  have hopen : c ≠ 40 := by rintro rfl; exact absurd h (by decide)
  have hquote : c ≠ Text.quote := by rintro rfl; exact absurd h (by decide)
  simp [expression, hopen, hquote, h]

theorem expression_alpha {c : UInt8} (h : Text.isAlpha c = true) (fuel : Nat) (s : Text) :
    expression (fuel + 1) (c :: s) = some (name (c :: s)) := by
  have hopen : c ≠ 40 := by rintro rfl; exact absurd h (by decide)
  have hquote : c ≠ Text.quote := by rintro rfl; exact absurd h (by decide)
  simp [expression, hopen, hquote, h, Text.isDigit_of_isAlpha h]

/-- The text of an expression is read back as its normal form, whatever stands behind it that does not go on with a word
or a number. -/
theorem expression_python {e : Expr} (h : e.Sourced) (haccepted : ∀ n ∈ e.walk, n.Accepted) : ∀ {fuel : Nat} {rest : Text},
    e.python.length ≤ fuel → Ends rest → expression fuel (e.python ++ rest) = some (e.bare, rest) := by
  induction e with
  | number t value =>
    intro fuel rest hfuel hrest
    obtain ⟨b, hread, hpos⟩ := Text.IsNumeral.reading h.1.2 h.2
    obtain ⟨d, more, htext, hd⟩ := (isText_pythonFloat hread hpos).first
    have hnumber := number_text h.1 h.2 hrest
    simp only [Expr.python, htext, List.cons_append] at hfuel hnumber ⊢
    obtain ⟨fuel, rfl⟩ := Nat.exists_eq_add_one_of_ne_zero (Nat.ne_zero_of_lt hfuel)
    rw [expression_digit hd, hnumber, Expr.bare]
  | string t value =>
    intro fuel rest hfuel hrest
    have hliteral := literal_own_quote h.1 h.2 (haccepted _ (by simp [Expr.walk])) rest
    simp only [Expr.python, List.cons_append, List.nil_append] at hfuel ⊢
    obtain ⟨fuel, rfl⟩ := Nat.exists_eq_add_one_of_ne_zero (Nat.ne_zero_of_lt hfuel)
    simp only [expression, Expr.bare, ← hliteral]
    rfl
  | var t =>
    intro fuel rest hfuel hrest
    obtain ⟨c, more, hlexeme, hc, _⟩ := h.2.1
    have hname := name_lexeme h hrest
    simp only [Expr.python, Expr.bare, hlexeme, List.cons_append] at hfuel hname ⊢
    obtain ⟨fuel, rfl⟩ := Nat.exists_eq_add_one_of_ne_zero (Nat.ne_zero_of_lt hfuel)
    rw [expression_alpha hc, hname]
  | operation form left op right ihl ihr =>
    intro fuel rest hfuel hrest
    obtain ⟨hl, ⟨kind, hk, hop⟩, hr⟩ := h
    simp only [Expr.walk, List.mem_cons, List.mem_append] at haccepted
    simp only [Expr.python, List.length_append] at hfuel
    cases fuel with
    | zero => simp [utf8] at hfuel
    | succ fuel =>
      have hlength : (utf8 "(").length = 1 := rfl
      have htext : (Expr.operation form left op right).python ++ rest =
          40 :: (left.python ++ (utf8 " " ++ form.symbol op ++ utf8 " " ++ (right.python ++ (utf8 ")" ++ rest)))) := by
        simp only [Expr.python, List.append_assoc]
        rfl
      have hleft := @ihl hl (fun n hn => haccepted n (Or.inr (Or.inl hn))) fuel
        (utf8 " " ++ form.symbol op ++ utf8 " " ++ (right.python ++ (utf8 ")" ++ rest))) (by omega)
        (by rw [List.append_assoc, List.append_assoc]; exact ends_space _)
      have hright := @ihr hr (fun n hn => haccepted n (Or.inr (Or.inr hn))) fuel (utf8 ")" ++ rest) (by omega)
        (ends_close rest)
      rw [htext]
      simp only [expression, ↓reduceIte, hleft, operator_symbol hk hop, hright, strip_append, Option.bind_eq_bind,
        Option.bind_some]
      rfl
  | hole => exact h.elim

theorem closed_python {e : Expr} (h : e.Sourced) (haccepted : ∀ n ∈ e.walk, n.Accepted) (ending : Text)
    (hending : Ends ending) : closed ending (e.python ++ ending) = some e.bare := by
  have hfuel : e.python.length ≤ (e.python ++ ending).length := by simp
  simp only [closed, expression_python h haccepted hfuel hending, Option.bind_eq_bind, Option.bind_some, ↓reduceIte]

theorem eq_append_of_strip {α : Type} [BEq α] [LawfulBEq α] {front s rest : List α} (h : strip front s = some rest) :
    s = front ++ rest := by
  unfold strip at h
  split at h
  next hfront =>
    obtain ⟨more, rfl⟩ := List.isPrefixOf_iff_prefix.mp hfront
    cases Option.some.inj h
    simp
  next => cases h

/-- A line that starts with another word does not start with the given word. -/
theorem strip_word (word : Text) (stop : UInt8) (hword : ∀ b ∈ word, Text.isWord b = true)
    (hstop : Text.isWord stop = false) {t : Text} (hne : t.takeWhile Text.isWord ≠ word) :
    strip (word ++ [stop]) t = none := by
  cases h : strip (word ++ [stop]) t with
  | none => rfl
  | some rest =>
    refine absurd ?_ hne
    rw [eq_append_of_strip h, List.append_assoc]
    exact takeWhile_append_stop hword (by rintro _ ⟨⟩; exact hstop)

theorem lexeme_ne_keyword {t : Token} (ht : t.Is .identifier) (word : Text)
    (hword : (Kind.keywords.lookup word.lower).isSome = true) : t.lexeme ≠ word := by
  rintro rfl
  rw [ht.2.2] at hword
  cases hword

theorem isWord_lexeme {t : Token} (ht : t.Is .identifier) : ∀ b ∈ t.lexeme, Text.isWord b = true := by
  obtain ⟨c, more, hlexeme, hc, hmore⟩ := ht.2.1
  rw [hlexeme]
  exact List.forall_mem_cons.mpr ⟨by simp [Text.isWord, hc], hmore⟩

theorem head_assign {name : Token} {value : Expr} (hname : name.Is .identifier) (hvalue : value.Sourced)
    (haccepted : ∀ n ∈ value.walk, n.Accepted) :
    head (name.lexeme ++ utf8 " = " ++ value.python) = some (.assign (name.bare name.lexeme) value.bare) := by
  have hkind : name.bare name.lexeme = token .identifier name.lexeme := by rw [Token.bare, hname.1, token]
  have hclosed := closed_python hvalue haccepted [] (by rintro _ ⟨⟩)
  rw [List.append_nil] at hclosed
  rw [List.append_assoc]
  have htake : (name.lexeme ++ (utf8 " = " ++ value.python)).takeWhile Text.isWord = name.lexeme :=
    takeWhile_append_stop (isWord_lexeme hname) (by rintro _ ⟨⟩; decide)
  generalize htext : name.lexeme ++ (utf8 " = " ++ value.python) = t at htake ⊢
  have hprint : strip (utf8 "print(") t = none :=
    strip_word (utf8 "print") 40 (List.all_eq_true.mp rfl) (by decide) (htake ▸ lexeme_ne_keyword hname _ (by decide))
  have hif : strip (utf8 "if ") t = none :=
    strip_word (utf8 "if") 32 (List.all_eq_true.mp rfl) (by decide) (htake ▸ lexeme_ne_keyword hname _ (by decide))
  have hwhile : strip (utf8 "while ") t = none :=
    strip_word (utf8 "while") 32 (List.all_eq_true.mp rfl) (by decide) (htake ▸ lexeme_ne_keyword hname _ (by decide))
  have hspace : Text.space ∈ t := by
    rw [← htext]
    exact List.mem_append_right _ (List.mem_append_left _ (by decide))
  have hpass : t ≠ utf8 "pass" := by
    rintro rfl
    exact absurd hspace (by decide)
  have helse : t ≠ utf8 "else:" := by
    rintro rfl
    exact absurd hspace (by decide)
  have hdrop : t.drop name.lexeme.length = utf8 " = " ++ value.python := by rw [← htext, List.drop_left]
  simp only [head, hprint, hif, hwhile, hpass, helse, ↓reduceIte, htake, hdrop, strip_append, hclosed,
    Option.bind_eq_bind, Option.bind_some, Option.map_some, hkind]

theorem head_print {value : Expr} (hvalue : value.Sourced) (haccepted : ∀ n ∈ value.walk, n.Accepted) :
    head (utf8 "print(" ++ value.python ++ utf8 ")") = some (.print value.bare) := by
  rw [List.append_assoc]
  simp only [head, strip_append, closed_python hvalue haccepted (utf8 ")") (ends_close []), Option.map_some]

theorem ends_colon : Ends (utf8 ":") := by
  rintro _ ⟨⟩
  decide

theorem head_branch {cond : Expr} (hcond : cond.Sourced) (haccepted : ∀ n ∈ cond.walk, n.Accepted) :
    head (utf8 "if " ++ cond.python ++ utf8 ":") = some (.branch cond.bare) := by
  rw [List.append_assoc]
  have hprint : strip (utf8 "print(") (utf8 "if " ++ (cond.python ++ utf8 ":")) = none := rfl
  simp only [head, hprint, strip_append, closed_python hcond haccepted (utf8 ":") ends_colon, Option.map_some]

theorem head_loop {cond : Expr} (hcond : cond.Sourced) (haccepted : ∀ n ∈ cond.walk, n.Accepted) :
    head (utf8 "while " ++ cond.python ++ utf8 ":") = some (.loop cond.bare) := by
  rw [List.append_assoc]
  have hprint : strip (utf8 "print(") (utf8 "while " ++ (cond.python ++ utf8 ":")) = none := rfl
  have hif : strip (utf8 "if ") (utf8 "while " ++ (cond.python ++ utf8 ":")) = none := rfl
  simp only [head, hprint, hif, strip_append, closed_python hcond haccepted (utf8 ":") ends_colon, Option.map_some]

theorem row_line (depth : Nat) {t : Text} {h : Head} (hstart : ∀ b ∈ t.head?, b ≠ Text.space) (hhead : head t = some h) :
    row (Python.line depth t) = some ⟨depth, h⟩ := by
  have hblanks : (Python.line depth t).takeWhile (· == Text.space) = List.replicate (4 * depth) Text.space :=
    takeWhile_append_stop (by simp) fun b hb => by simpa using hstart b hb
  have hdrop : (Python.line depth t).drop (4 * depth) = t := by simp [Python.line]
  simp only [row, hblanks, List.length_replicate, Nat.mul_mod_right, ↓reduceIte, hdrop, hhead, Option.map_some]
  simp

/-- The rows of a suite. -/
def suiteRows (depth : Nat) (rows : List Row) : List Row :=
  if rows.isEmpty then [⟨depth, .pass⟩] else rows

mutual

/-- The rows of a statement in normal form. -/
def stmtRows (depth : Nat) : Stmt → List Row
  | .create name value => [⟨depth, .assign (name.bare name.lexeme) value.bare⟩]
  | .assign name value => [⟨depth, .assign (name.bare name.lexeme) value.bare⟩]
  | .print _ value => [⟨depth, .print value.bare⟩]
  | .branch _ cond yes no =>
    ⟨depth, .branch cond.bare⟩ :: (suiteRows (depth + 1) (blockRows (depth + 1) yes) ++
      match no with
      | some [] => []
      | some block => ⟨depth, .otherwise⟩ :: suiteRows (depth + 1) (blockRows (depth + 1) block)
      | none => [])
  | .loop _ cond body => ⟨depth, .loop cond.bare⟩ :: suiteRows (depth + 1) (blockRows (depth + 1) body)
  | .hole => []

/-- The rows of the statements of a block. -/
def blockRows (depth : Nat) : List Stmt → List Row
  | [] => []
  | s :: rest => stmtRows depth s ++ blockRows depth rest

end

theorem mapM_append {lines more : List Text} {rows moreRows : List Row} (h : lines.mapM row = some rows)
    (hmore : more.mapM row = some moreRows) : (lines ++ more).mapM row = some (rows ++ moreRows) := by
  simp [List.mapM_append, h, hmore]

theorem mapM_cons {line : Text} {r : Row} {lines : List Text} {rows : List Row} (hline : row line = some r)
    (h : lines.mapM row = some rows) : (line :: lines).mapM row = some (r :: rows) := by
  simp [List.mapM_cons, h, hline]

theorem row_pass (depth : Nat) : row (Python.line depth (utf8 "pass")) = some ⟨depth, .pass⟩ :=
  row_line depth (by rintro _ ⟨⟩; decide) rfl

theorem row_else (depth : Nat) : row (Python.line depth (utf8 "else:")) = some ⟨depth, .otherwise⟩ :=
  row_line depth (by rintro _ ⟨⟩; decide) rfl

theorem mapM_body {depth : Nat} {lines : List Text} {rows : List Row} (h : lines.mapM row = some rows) :
    (Python.body depth lines).mapM row = some (suiteRows depth rows) := by
  cases lines with
  | nil =>
    cases Option.some.inj h
    exact mapM_cons (row_pass depth) rfl
  | cons line lines =>
    rw [List.mapM_cons] at h
    obtain ⟨r, hr, h⟩ := Option.bind_eq_some_iff.mp h
    obtain ⟨rest, hrest, h⟩ := Option.bind_eq_some_iff.mp h
    cases Option.some.inj h
    exact mapM_cons hr hrest

theorem row_assign (depth : Nat) {name : Token} {value : Expr} (hname : name.Is .identifier) (hvalue : value.Sourced)
    (haccepted : ∀ n ∈ value.walk, n.Accepted) :
    row (Python.line depth (name.lexeme ++ utf8 " = " ++ value.python)) =
      some ⟨depth, .assign (name.bare name.lexeme) value.bare⟩ := by
  refine row_line depth ?_ (head_assign hname hvalue haccepted)
  obtain ⟨c, more, hlexeme, hc, _⟩ := hname.2.1
  rw [hlexeme]
  rintro b hb rfl
  cases Option.some.inj hb
  exact absurd hc (by decide)

mutual

theorem mapM_stmt (depth : Nat) : ∀ {s : Stmt}, s.Sourced → (∀ n ∈ s.walk, n.Accepted) →
    (s.python depth).mapM row = some (stmtRows depth s)
  | .create _ _, h, hl => by
    rw [Stmt.python, stmtRows]
    exact mapM_cons (row_assign depth h.1 h.2 fun n hn => hl n (by simp [Stmt.walk, hn])) rfl
  | .assign _ _, h, hl => by
    rw [Stmt.python, stmtRows]
    exact mapM_cons (row_assign depth h.1 h.2 fun n hn => hl n (by simp [Stmt.walk, hn])) rfl
  | .print _ _, h, hl => by
    rw [Stmt.python, stmtRows]
    exact mapM_cons (row_line depth (by rintro _ ⟨⟩; decide)
      (head_print h.2 fun n hn => hl n (by simp [Stmt.walk, hn]))) rfl
  | .branch _ _ _ none, h, hl => by
    rw [Stmt.python, stmtRows]
    refine mapM_cons (row_line depth (by rintro _ ⟨⟩; decide)
      (head_branch h.2.1 fun n hn => hl n (by simp [Stmt.walk, hn]))) (mapM_append (mapM_body ?_) rfl)
    exact mapM_block (depth + 1) h.2.2.1 fun n hn => hl n (by simp [Stmt.walk, hn])
  | .branch _ _ _ (some []), h, hl => by
    rw [Stmt.python, stmtRows]
    refine mapM_cons (row_line depth (by rintro _ ⟨⟩; decide)
      (head_branch h.2.1 fun n hn => hl n (by simp [Stmt.walk, hn]))) (mapM_append (mapM_body ?_) rfl)
    exact mapM_block (depth + 1) h.2.2.1 fun n hn => hl n (by simp [Stmt.walk, hn])
  | .branch _ _ _ (some (_ :: _)), h, hl => by
    simp only [Stmt.python, stmtRows]
    refine mapM_cons (row_line depth (by rintro _ ⟨⟩; decide)
      (head_branch h.2.1 fun n hn => hl n (by simp [Stmt.walk, hn])))
      (mapM_append (mapM_body ?_) (mapM_cons (row_else depth) (mapM_body ?_)))
    · exact mapM_block (depth + 1) h.2.2.1 fun n hn => hl n (by simp [Stmt.walk, hn])
    · exact mapM_block (depth + 1) h.2.2.2 fun n hn => hl n (by simp [Stmt.walk, hn])
  | .loop _ _ _, h, hl => by
    rw [Stmt.python, stmtRows]
    refine mapM_cons (row_line depth (by rintro _ ⟨⟩; decide)
      (head_loop h.2.1 fun n hn => hl n (by simp [Stmt.walk, hn]))) (mapM_body ?_)
    exact mapM_block (depth + 1) h.2.2 fun n hn => hl n (by simp [Stmt.walk, hn])
  | .hole, h, _ => h.elim

theorem mapM_block (depth : Nat) : ∀ {ss : List Stmt}, BlockSourced ss → (∀ n ∈ walkBlock ss, n.Accepted) →
    (pythonBlock depth ss).mapM row = some (blockRows depth ss)
  | [], _, _ => rfl
  | _ :: _, h, hl => by
    rw [pythonBlock, blockRows]
    exact mapM_append (mapM_stmt depth h.1 fun n hn => hl n (by simp [walkBlock, hn]))
      (mapM_block depth h.2 fun n hn => hl n (by simp [walkBlock, hn]))

end

theorem depth_lt_suiteRows {depth : Nat} {rows : List Row} (h : ∀ r ∈ rows, depth + 1 ≤ r.depth) :
    ∀ r ∈ suiteRows (depth + 1) rows, depth < r.depth := by
  intro r hr
  unfold suiteRows at hr
  split at hr
  · rw [List.mem_singleton.mp hr]
    exact Nat.lt_succ_self depth
  · exact h r hr

mutual

theorem depth_le_stmt (depth : Nat) : ∀ (s : Stmt), ∀ r ∈ stmtRows depth s, depth ≤ r.depth
  | .create _ _, r, hr => by simp_all [stmtRows]
  | .assign _ _, r, hr => by simp_all [stmtRows]
  | .print _ _, r, hr => by simp_all [stmtRows]
  | .branch _ _ yes none, r, hr => by
    simp only [stmtRows, List.append_nil, List.mem_cons] at hr
    rcases hr with rfl | hr
    · exact Nat.le_refl _
    · exact Nat.le_of_lt (depth_lt_suiteRows (depth_le_block (depth + 1) yes) r hr)
  | .branch _ _ yes (some []), r, hr => by
    simp only [stmtRows, List.append_nil, List.mem_cons] at hr
    rcases hr with rfl | hr
    · exact Nat.le_refl _
    · exact Nat.le_of_lt (depth_lt_suiteRows (depth_le_block (depth + 1) yes) r hr)
  | .branch _ _ yes (some (s :: rest)), r, hr => by
    simp only [stmtRows, List.mem_append, List.mem_cons] at hr
    rcases hr with rfl | hr | rfl | hr
    · exact Nat.le_refl _
    · exact Nat.le_of_lt (depth_lt_suiteRows (depth_le_block (depth + 1) yes) r hr)
    · exact Nat.le_refl _
    · exact Nat.le_of_lt (depth_lt_suiteRows (depth_le_block (depth + 1) (s :: rest)) r hr)
  | .loop _ _ body, r, hr => by
    simp only [stmtRows, List.mem_cons] at hr
    rcases hr with rfl | hr
    · exact Nat.le_refl _
    · exact Nat.le_of_lt (depth_lt_suiteRows (depth_le_block (depth + 1) body) r hr)
  | .hole, r, hr => by simp [stmtRows] at hr

theorem depth_le_block (depth : Nat) : ∀ (ss : List Stmt), ∀ r ∈ blockRows depth ss, depth ≤ r.depth
  | [], r, hr => by simp [blockRows] at hr
  | s :: rest, r, hr => by
    simp only [blockRows, List.mem_append] at hr
    rcases hr with hr | hr
    · exact depth_le_stmt depth s r hr
    · exact depth_le_block depth rest r hr

end

theorem stmtRows_first (depth : Nat) {s : Stmt} (h : s.Sourced) :
    ∃ first rest, stmtRows depth s = ⟨depth, first⟩ :: rest ∧ first ≠ .pass ∧ first ≠ .otherwise := by
  cases s with
  | hole => exact h.elim
  | branch _ _ _ no => exact ⟨_, _, stmtRows.eq_def _ _, by simp, by simp⟩
  | _ => exact ⟨_, _, by rw [stmtRows], by simp, by simp⟩

/-- The rows do not belong to a statement before them at the depth: they are not deeper, and no `else` comes first. -/
def Follows (depth : Nat) (rows : List Row) : Prop :=
  (∀ r ∈ rows.head?, decide (depth < r.depth) = false) ∧ startsElse depth rows = false

theorem follows_block (depth : Nat) {ss : List Stmt} (h : BlockSourced ss) : Follows depth (blockRows depth ss) := by
  cases ss with
  | nil => exact ⟨by simp [blockRows], rfl⟩
  | cons s rest =>
    obtain ⟨first, more, hfirst, _, hne⟩ := stmtRows_first depth h.1
    rw [blockRows, hfirst]
    constructor
    · rintro _ ⟨⟩
      simp
    · cases first <;> first | rfl | exact absurd rfl hne

theorem suite_rows {depth : Nat} {ss : List Stmt} (h : BlockSourced ss) {found : List Stmt}
    (hfound : statements depth (blockRows depth ss) = some found) :
    suite depth (suiteRows depth (blockRows depth ss)) (statements depth (suiteRows depth (blockRows depth ss))) =
      some found := by
  cases ss with
  | nil =>
    rw [blockRows, statements] at hfound
    cases Option.some.inj hfound
    simp [blockRows, suiteRows, suite]
  | cons s rest =>
    obtain ⟨first, more, hfirst, hne, _⟩ := stmtRows_first depth h.1
    have hrows : blockRows depth (s :: rest) = ⟨depth, first⟩ :: (more ++ blockRows depth rest) := by
      rw [blockRows, hfirst, List.cons_append]
    rw [hrows] at hfound ⊢
    simp only [suiteRows, List.isEmpty_cons, Bool.false_eq_true, ↓reduceIte, hfound]
    unfold suite
    split
    next heq => cases heq
    next heq =>
      cases (List.cons.inj heq).1
      exact absurd rfl hne
    next => rfl

theorem inner_rows {depth : Nat} (ss : List Stmt) {more : List Row}
    (h : ∀ r ∈ more.head?, decide (depth < r.depth) = false) :
    (suiteRows (depth + 1) (blockRows (depth + 1) ss) ++ more).takeWhile (fun r => decide (depth < r.depth)) =
      suiteRows (depth + 1) (blockRows (depth + 1) ss) :=
  takeWhile_append_stop (fun r hr => decide_eq_true (depth_lt_suiteRows (depth_le_block (depth + 1) ss) r hr)) h

theorem rows_after {depth : Nat} (ss : List Stmt) {more : List Row}
    (h : ∀ r ∈ more.head?, decide (depth < r.depth) = false) :
    (suiteRows (depth + 1) (blockRows (depth + 1) ss) ++ more).dropWhile (fun r => decide (depth < r.depth)) = more :=
  dropWhile_append_stop (fun r hr => decide_eq_true (depth_lt_suiteRows (depth_le_block (depth + 1) ss) r hr)) h

mutual

theorem statements_stmt (depth : Nat) : ∀ {s : Stmt}, s.Sourced → ∀ {more : List Row} {rest : List Stmt},
    Follows depth more → statements depth more = some rest →
      statements depth (stmtRows depth s ++ more) = some (s.bare :: rest)
  | .create _ _, _, more, rest, _, hrest => by
    simp only [stmtRows, List.cons_append, List.nil_append]
    rw [statements]
    simp [hrest, Stmt.bare]
  | .assign _ _, _, more, rest, _, hrest => by
    simp only [stmtRows, List.cons_append, List.nil_append]
    rw [statements]
    simp [hrest, Stmt.bare]
  | .print keyword _, h, more, rest, _, hrest => by
    have hkind : keyword.bare [] = token .print [] := by rw [Token.bare, h.1.1, token]
    simp only [stmtRows, List.cons_append, List.nil_append]
    rw [statements]
    simp [hrest, Stmt.bare, hkind]
  | .loop keyword cond body, h, more, rest, hfollows, hrest => by
    have hkind : keyword.bare [] = token .while [] := by rw [Token.bare, h.1.1, token]
    have hsuite := suite_rows h.2.2 (statements_block (depth + 1) h.2.2)
    simp only [stmtRows, List.cons_append]
    rw [statements]
    simp [inner_rows body hfollows.1, rows_after body hfollows.1, hsuite, hrest, Stmt.bare, hkind]
  | .branch keyword cond yes none, h, more, rest, hfollows, hrest => by
    have hkind : keyword.bare [] = token .if [] := by rw [Token.bare, h.1.1, token]
    have hsuite := suite_rows h.2.2.1 (statements_block (depth + 1) h.2.2.1)
    simp only [stmtRows, List.cons_append, List.append_nil]
    rw [statements]
    simp [inner_rows yes hfollows.1, rows_after yes hfollows.1, hsuite, hrest, hfollows.2, Stmt.bare, hkind]
  | .branch keyword cond yes (some []), h, more, rest, hfollows, hrest => by
    have hkind : keyword.bare [] = token .if [] := by rw [Token.bare, h.1.1, token]
    have hsuite := suite_rows h.2.2.1 (statements_block (depth + 1) h.2.2.1)
    simp only [stmtRows, List.cons_append, List.append_nil]
    rw [statements]
    simp [inner_rows yes hfollows.1, rows_after yes hfollows.1, hsuite, hrest, hfollows.2, Stmt.bare, hkind]
  | .branch keyword cond yes (some (s :: ss)), h, more, rest, hfollows, hrest => by
    have hkind : keyword.bare [] = token .if [] := by rw [Token.bare, h.1.1, token]
    have hyes := suite_rows h.2.2.1 (statements_block (depth + 1) h.2.2.1)
    have hno := suite_rows h.2.2.2 (statements_block (depth + 1) h.2.2.2)
    -- The suite of the first branch ends at the `else`, which is no deeper than its `if`.
    have helse : ∀ r ∈ (⟨depth, .otherwise⟩ :: (suiteRows (depth + 1) (blockRows (depth + 1) (s :: ss)) ++
        more) : List Row).head?, decide (depth < r.depth) = false := by
      rintro _ ⟨⟩
      simp
    simp only [stmtRows, List.cons_append, List.append_assoc]
    rw [statements]
    simp [inner_rows yes helse, rows_after yes helse, startsElse, inner_rows (s :: ss) hfollows.1,
      rows_after (s :: ss) hfollows.1, hyes, hno, hrest, Stmt.bare, hkind]
  | .hole, h, _, _, _, _ => h.elim

theorem statements_block (depth : Nat) : ∀ {ss : List Stmt}, BlockSourced ss →
    statements depth (blockRows depth ss) = some (bareBlock ss)
  | [], _ => by rw [blockRows, statements, bareBlock]
  | _ :: _, h => by
    rw [blockRows, bareBlock]
    exact statements_stmt depth h.1 (follows_block depth h.2) (statements_block depth h.2)

end

end ReadBack

namespace Text

theorem splitLines_ne_nil (t : Text) : splitLines t ≠ [] := by
  cases t with
  | nil => simp [splitLines]
  | cons b t =>
    rw [splitLines]
    split
    · simp
    · split <;> simp

theorem splitLines_line {l : Text} (h : lf ∉ l) (t : Text) : splitLines (l ++ lf :: t) = l :: splitLines t := by
  induction l with
  | nil =>
    obtain ⟨first, rest, ht⟩ := List.exists_cons_of_ne_nil (splitLines_ne_nil t)
    simp [splitLines, ht]
  | cons b l ih =>
    have hb : b ≠ lf := fun heq => h (by simp [heq])
    have hl := ih fun hmem => h (by simp [hmem])
    simp [splitLines, hl, hb]

theorem splitLines_unlines {lines : List Text} (h : ∀ l ∈ lines, lf ∉ l) :
    splitLines (unlines lines) = lines ++ [[]] := by
  induction lines with
  | nil => rfl
  | cons l lines ih =>
    have hl := splitLines_line (h l (by simp)) (unlines lines)
    have hrest := ih fun m hm => h m (by simp [hm])
    rw [show unlines (l :: lines) = l ++ lf :: unlines lines by simp [unlines], hl, hrest, List.cons_append]

end Text

theorem Expr.Sourced.lf_not_mem {e : Expr} (h : e.Sourced) : Text.lf ∉ e.python := by
  induction e with
  | number t value =>
    obtain ⟨b, hread, hpos⟩ := Text.IsNumeral.reading h.1.2 h.2
    exact fun hmem => absurd ((isText_pythonFloat hread hpos).numeric _ hmem) (by decide)
  | string t value =>
    intro hmem
    simp only [Expr.python, List.mem_append, List.mem_singleton] at hmem
    rcases hmem with (hmem | hmem) | hmem
    · exact absurd hmem (by decide)
    · have hbyte : Lexer.isStringByte Text.lf = true := h.1.2 _ (h.2 ▸ hmem)
      exact absurd hbyte (by decide)
    · exact absurd hmem (by decide)
  | var t => exact fun hmem => absurd (ReadBack.isWord_lexeme h _ hmem) (by decide)
  | operation form left op right ihl ihr =>
    obtain ⟨hl, ⟨kind, hk, hop⟩, hr⟩ := h
    have hsymbol : Text.lf ∉ form.symbol op :=
      (show ∀ x ∈ ReadBack.operators, Text.lf ∉ x.1 by decide) _ (ReadBack.symbol_mem_operators hk hop)
    intro hmem
    simp only [Expr.python, List.mem_append] at hmem
    rcases hmem with (((((hmem | hmem) | hmem) | hmem) | hmem) | hmem) | hmem
    · exact absurd hmem (by decide)
    · exact ihl hl hmem
    · exact absurd hmem (by decide)
    · exact hsymbol hmem
    · exact absurd hmem (by decide)
    · exact ihr hr hmem
    · exact absurd hmem (by decide)
  | hole => exact h.elim

/-- Lines without a line feed in them. -/
def Unbroken (lines : List Text) : Prop :=
  ∀ l ∈ lines, Text.lf ∉ l

namespace Unbroken

theorem nil : Unbroken [] := by
  simp [Unbroken]

theorem cons {l : Text} {lines : List Text} (hl : Text.lf ∉ l) (h : Unbroken lines) : Unbroken (l :: lines) :=
  List.forall_mem_cons.mpr ⟨hl, h⟩

theorem append {lines more : List Text} (h : Unbroken lines) (hmore : Unbroken more) : Unbroken (lines ++ more) :=
  List.forall_mem_append.mpr ⟨h, hmore⟩

theorem line (depth : Nat) {f m b : Text} (hfront : Text.lf ∉ f) (hmiddle : Text.lf ∉ m)
    (hback : Text.lf ∉ b) : Text.lf ∉ Python.line depth (f ++ m ++ b) := by
  simp only [Python.line, List.mem_append, List.mem_replicate, not_or]
  exact ⟨fun h => absurd h.2 (by decide), ⟨hfront, hmiddle⟩, hback⟩

theorem body (depth : Nat) {lines : List Text} (h : Unbroken lines) : Unbroken (Python.body depth lines) := by
  unfold Python.body
  split
  · exact cons (line depth (f := []) (m := utf8 "pass") (b := []) (by simp) (by decide) (by simp)) nil
  · exact h

end Unbroken

mutual

theorem Stmt.Sourced.unbroken (depth : Nat) : ∀ {s : Stmt}, s.Sourced → Unbroken (s.python depth)
  | .create name value, h => by
    rw [Stmt.python]
    exact Unbroken.cons (Unbroken.line depth (fun hmem => absurd (ReadBack.isWord_lexeme h.1 _ hmem) (by decide))
      (by decide) h.2.lf_not_mem) Unbroken.nil
  | .assign name value, h => by
    rw [Stmt.python]
    exact Unbroken.cons (Unbroken.line depth (fun hmem => absurd (ReadBack.isWord_lexeme h.1 _ hmem) (by decide))
      (by decide) h.2.lf_not_mem) Unbroken.nil
  | .print _ value, h => by
    rw [Stmt.python]
    exact Unbroken.cons (Unbroken.line depth (by decide) h.2.lf_not_mem (by decide)) Unbroken.nil
  | .branch _ cond yes none, h => by
    simp only [Stmt.python, List.append_nil]
    exact Unbroken.cons (Unbroken.line depth (by decide) h.2.1.lf_not_mem (by decide))
      (Unbroken.body (depth + 1) (BlockSourced.unbroken (depth + 1) h.2.2.1))
  | .branch _ cond yes (some []), h => by
    simp only [Stmt.python, List.append_nil]
    exact Unbroken.cons (Unbroken.line depth (by decide) h.2.1.lf_not_mem (by decide))
      (Unbroken.body (depth + 1) (BlockSourced.unbroken (depth + 1) h.2.2.1))
  | .branch _ cond yes (some (s :: ss)), h => by
    simp only [Stmt.python]
    have helse : Text.lf ∉ Python.line depth (utf8 "else:") :=
      Unbroken.line depth (f := []) (m := utf8 "else:") (b := []) (by simp) (by decide) (by simp)
    exact Unbroken.cons (Unbroken.line depth (by decide) h.2.1.lf_not_mem (by decide))
      ((Unbroken.body (depth + 1) (BlockSourced.unbroken (depth + 1) h.2.2.1)).append
        (Unbroken.cons helse (Unbroken.body (depth + 1) (BlockSourced.unbroken (depth + 1) h.2.2.2))))
  | .loop _ cond ss, h => by
    rw [Stmt.python]
    exact Unbroken.cons (Unbroken.line depth (by decide) h.2.1.lf_not_mem (by decide))
      (Unbroken.body (depth + 1) (BlockSourced.unbroken (depth + 1) h.2.2))
  | .hole, h => h.elim

theorem BlockSourced.unbroken (depth : Nat) : ∀ {ss : List Stmt}, BlockSourced ss → Unbroken (pythonBlock depth ss)
  | [], _ => Unbroken.nil
  | _ :: _, h => by
    rw [pythonBlock]
    exact (Stmt.Sourced.unbroken depth h.1).append (BlockSourced.unbroken depth h.2)

end

/-- The lines of the Python text of a program. -/
theorem BlockSourced.splitLines_python {p : Program} (h : BlockSourced p) :
    (Text.splitLines (Program.python p)).dropLast = Python.header ++ pythonBlock 0 p := by
  have hheader : Unbroken Python.header := by
    unfold Unbroken
    decide
  rw [Program.python, Program.pythonLines, Text.splitLines_unlines (hheader.append (h.unbroken 0)), List.dropLast_concat]

theorem BlockSourced.readBack {p : Program} (h : BlockSourced p) (haccepted : ∀ n ∈ walkBlock p, n.Accepted) :
    ReadBack.program (Program.python p) = some (Program.bare p) := by
  simp only [ReadBack.program, h.splitLines_python, ReadBack.strip_append, ReadBack.mapM_block 0 h haccepted,
    ReadBack.statements_block 0 h, Option.bind_eq_bind, Option.bind_some, Program.bare]

/-- The Python text of a source that Python would not refuse can be read back, and what is read is the program in normal
form. So the text determines the normal form, and the program that is read back runs as the one that was written; where no
limit stops them, both runs come to the horizon together. -/
theorem python_readBack {source : Text} {p : Program} (h : parseSource source = .ok p)
    (hclean : Program.refusal? p = none) :
    ReadBack.program (Program.python p) = some (Program.bare p) ∧
      (∀ (other : Text) (q : Program), parseSource other = .ok q → Program.refusal? q = none →
        Program.python q = Program.python p → Program.bare q = Program.bare p) ∧
      ∀ (ev : Evaluator) (ctx : Context), (ev.run ctx (Program.bare p)).placeless = (ev.run ctx p).placeless := by
  have hread := (parseSource_sourced h).readBack (Program.accepted hclean)
  refine ⟨hread, ?_, fun ev ctx => ev.run_bare ctx p⟩
  intro other q hq hqclean heq
  have hqread := (parseSource_sourced hq).readBack (Program.accepted hqclean)
  rw [heq, hread] at hqread
  exact (Option.some.inj hqread).symm

/-- A loop with an empty branch, an `else`, a fraction and a literal with a backslash. -/
theorem python_readBack_loop :
    let source := Text.unlines [utf8 "CREATE VARIABLE x WITH VALUE 0.1", utf8 "WHILE x IS LESS THAN 3 DO",
      utf8 "IF x IS EQUAL TO 2 THEN", utf8 "ELSE", utf8 "PRINT \"a\\n\" + (x * 2)", utf8 "END IF", utf8 "SET x TO x + 1",
      utf8 "END WHILE"]
    ∃ p, parseSource source = .ok p ∧ Program.refusal? p = none ∧
      ReadBack.program (Program.python p) = some (Program.bare p) := by
  intro source
  have hclean : ((parseSource source).toOption.any fun p => (Program.refusal? p).isNone) = true := by decide +kernel
  cases hparse : parseSource source with
  | error e => simp [hparse, Except.toOption] at hclean
  | ok p =>
    simp only [hparse, Except.toOption, Option.any_some, Option.isNone_iff_eq_none] at hclean
    exact ⟨p, rfl, hclean, (python_readBack hparse hclean).1⟩

end EnglishScript
