import EnglishScript.Prompt
import EnglishScript.Proofs.Artifacts

namespace EnglishScript

namespace Written

theorem append_nothing (w : Written) : w ++ nothing = w := by
  change append w nothing = w
  simp only [append, nothing, List.append_nil]

theorem append_assoc (a b c : Written) : a ++ b ++ c = a ++ (b ++ c) := by
  change append (append a b) c = append a (append b c)
  simp only [append, List.append_assoc]

end Written

theorem Text.isBlank_eq_false_iff (t : Text) : t.isBlank = false ↔ t.trim ≠ [] := by
  rw [Ne, ← isBlank_iff, Bool.not_eq_true]

namespace Prompt

/-- A prompt shows a sign and waits for a line, or it runs a source. -/
inductive Event where
  | asked (sign : Text)
  | ran (source : Text)
  deriving DecidableEq, Repr

/-- The sign that the prompt shows. -/
def Event.sign? : Event → Option Text
  | .asked sign => some sign
  | .ran _ => none

/-- The source that the prompt runs. -/
def Event.source? : Event → Option Text
  | .asked _ => none
  | .ran source => some source

/-- What a prompt does with lines, given the lines of the block so far. -/
def events : List Text → List Text → List Event
  | block, [] => [.asked (if block.isEmpty then utf8 "> " else utf8 ". ")]
  | block, line :: rest =>
    .asked (if block.isEmpty then utf8 "> " else utf8 ". ") ::
      if !line.isBlank then events (block ++ [line]) rest
      else if block.isEmpty then events [] rest
      else .ran (Text.join [Text.lf] block) :: events [] rest

/-- Where a dialogue has led: the session, the machine, and all that was written. -/
structure Outcome where
  session : Session
  machine : Machine
  written : Written

/-- The outcome with more written in front. -/
def Outcome.after (o : Outcome) (before : Written) : Outcome :=
  { o with written := before ++ o.written }

/-- What is written about the error of a source. -/
def reported : Option SessionError → Written
  | some e => .stderr (utf8 "Error: " ++ e.message ++ [Text.lf])
  | none => .nothing

/-- Does what the events say. A source is run in the session and on the machine that the sources before it have left. -/
def perform (session : Session) (machine : Machine) : List Event → Outcome
  | [] => ⟨session, machine, .nothing⟩
  | .asked sign :: rest => (perform session machine rest).after (.stdout sign)
  | .ran source :: rest =>
    let step := session.runSource machine source
    (perform step.session step.machine rest).after (step.written ++ reported step.error)

/-- The outcome of lines that a prompt has taken. -/
def outcome (done : Prompt × Written) : Outcome :=
  ⟨done.1.session, done.1.machine, done.2⟩

theorem Outcome.after_after (o : Outcome) (first second : Written) :
    (o.after second).after first = o.after (first ++ second) := by
  simp only [after, Written.append_assoc]

theorem outcome_takeAll_cons (p : Prompt) (line : Text) (rest : List Text) :
    outcome (p.takeAll (line :: rest)) =
      (outcome ((p.take line).1.takeAll rest)).after (.stdout p.sign ++ (p.take line).2) :=
  rfl

theorem take_filled {line : Text} (h : line.isBlank = false) (p : Prompt) :
    p.take line = ({ p with block := p.block ++ [line], history := History.add p.history line }, .nothing) := by
  simp only [take, h, Bool.not_false, ↓reduceIte]

theorem take_blank {line : Text} (h : line.isBlank = true) (p : Prompt) :
    p.take line = if p.block.isEmpty then (p, .nothing) else p.runBlock := by
  simp only [take, h, Bool.not_true, Bool.false_eq_true, ↓reduceIte]

/-- A prompt does with lines what the events say that its block gives rise to. -/
theorem outcome_takeAll (lines : List Text) : ∀ p : Prompt,
    outcome (p.takeAll lines) = perform p.session p.machine (events p.block lines) := by
  induction lines with
  | nil =>
    intro p
    simp only [events, perform, Outcome.after, Written.append_nothing]
    rfl
  | cons line rest ih =>
    intro p
    rw [outcome_takeAll_cons, events, perform]
    cases hline : line.isBlank with
    | false =>
      rw [take_filled hline, ih, Written.append_nothing]
      rfl
    | true =>
      rw [take_blank hline]
      cases hblock : p.block.isEmpty with
      | true =>
        have hnil : p.block = [] := List.isEmpty_iff.mp hblock
        simp only [Bool.not_true, Bool.false_eq_true, ↓reduceIte]
        rw [ih, hnil, Written.append_nothing, sign, hnil]
        rfl
      | false =>
        simp only [Bool.not_true, Bool.false_eq_true, ↓reduceIte, perform]
        rw [ih, Outcome.after_after, sign, hblock]
        rfl

theorem start_block (session : Session) (machine : Machine) :
    (start session machine).1.session = session ∧ (start session machine).1.machine = machine ∧
      (start session machine).1.block = [] := by
  unfold start withHistory
  split <;> exact ⟨rfl, rfl, rfl⟩

/-- The sign behind a line: a filled line leaves a block open, a blank one does not. -/
def signBehind (line : Text) : Text :=
  if line.trim = [] then utf8 "> " else utf8 ". "

theorem signs_events (lines : List Text) : ∀ block : List Text,
    (events block lines).filterMap Event.sign? =
      (if block.isEmpty then utf8 "> " else utf8 ". ") :: lines.map signBehind := by
  induction lines with
  | nil => exact fun _ => rfl
  | cons line rest ih =>
    intro block
    cases hline : line.isBlank with
    | false =>
      have hfilled := (Text.isBlank_eq_false_iff line).mp hline
      have hrest := ih (block ++ [line])
      simp only [events, hline, Bool.not_false, ↓reduceIte, List.filterMap_cons, Event.sign?, hrest, List.map_cons,
        signBehind, hfilled]
      simp
    | true =>
      have hblank := (Text.isBlank_iff line).mp hline
      cases hblock : block.isEmpty <;>
        simp only [events, hline, hblock, Bool.not_true, Bool.false_eq_true, ↓reduceIte, List.filterMap_cons,
          Event.sign?, ih [], List.isEmpty_nil, List.map_cons, signBehind, hblank]

/-- The line at the index is there and is not blank. -/
def FilledAt (lines : List Text) (i : Nat) : Prop :=
  ∃ line, lines[i]? = some line ∧ line.trim ≠ []

/-- The line at the index is there and is blank. -/
def BlankAt (lines : List Text) (i : Nat) : Prop :=
  ∃ line, lines[i]? = some line ∧ line.trim = []

theorem FilledAt.not_blank {lines : List Text} {i : Nat} (h : FilledAt lines i) : ¬BlankAt lines i := by
  rintro ⟨line, hline, hblank⟩
  obtain ⟨other, hother, hfilled⟩ := h
  rw [hline] at hother
  cases hother
  exact hfilled hblank

/-- The lines from `start` up to `stop`, which is not included. -/
structure Block where
  start : Nat
  stop : Nat
  deriving DecidableEq, Repr

namespace Block

/-- The lines of a block. -/
def lines (b : Block) (all : List Text) : List Text :=
  (all.drop b.start).take (b.stop - b.start)

/-- No line of the block is blank, and it cannot start earlier. -/
structure Open (b : Block) (all : List Text) : Prop where
  ordered : b.start ≤ b.stop
  filled : ∀ i, b.start ≤ i → i < b.stop → FilledAt all i
  first : b.start = 0 ∨ BlankAt all (b.start - 1)

/-- A maximal group of lines that are not blank, with a blank line behind it. -/
structure Completed (b : Block) (all : List Text) : Prop extends Open b all where
  nonempty : b.start < b.stop
  ended : BlankAt all b.stop

variable {all : List Text} {b c : Block}

theorem lines_grow {line : Text} (hordered : b.start ≤ b.stop) (hline : all[b.stop]? = some line) :
    lines ⟨b.start, b.stop + 1⟩ all = b.lines all ++ [line] := by
  have hsize : b.stop + 1 - b.start = b.stop - b.start + 1 := by omega
  have hlast : (all.drop b.start)[b.stop - b.start]? = some line := by
    rw [List.getElem?_drop, Nat.add_sub_cancel' hordered, hline]
  rw [lines, lines, hsize, List.take_add_one, hlast]
  rfl

theorem lines_fresh (all : List Text) (n : Nat) : lines ⟨n, n⟩ all = [] := by
  rw [lines, Nat.sub_self, List.take_zero]

theorem Open.lines_eq_nil_iff (h : b.Open all) : b.lines all = [] ↔ b.start = b.stop := by
  have hordered := h.ordered
  rw [lines, List.take_eq_nil_iff, List.drop_eq_nil_iff]
  constructor
  · rintro (hsize | hshort)
    · omega
    · by_contra hne
      obtain ⟨line, hline, _⟩ := h.filled b.start (Nat.le_refl _) (by omega)
      rw [List.getElem?_eq_none hshort] at hline
      cases hline
  · intro heq
    exact Or.inl (by omega)

theorem Open.grow (h : b.Open all) (hfilled : FilledAt all b.stop) : Open ⟨b.start, b.stop + 1⟩ all := by
  refine ⟨Nat.le_succ_of_le h.ordered, ?_, h.first⟩
  intro i hstart hstop
  rcases Nat.lt_succ_iff_lt_or_eq.mp hstop with hlt | rfl
  · exact h.filled i hstart hlt
  · exact hfilled

theorem open_fresh {n : Nat} (h : BlankAt all n) : Open ⟨n + 1, n + 1⟩ all := by
  refine ⟨Nat.le_refl _, ?_, Or.inr h⟩
  intro i hstart hstop
  exact absurd hstop (Nat.not_lt.mpr hstart)

/-- The place where a block ends determines where it starts. -/
theorem Open.start_le (hb : b.Open all) (hc : c.Open all) (h : b.stop = c.stop) : b.start ≤ c.start := by
  rcases hb.first with hzero | hblank
  · omega
  · by_contra hlt
    have hordered := hb.ordered
    exact (hc.filled (b.start - 1) (by omega) (by omega)).not_blank hblank

theorem Open.eq_of_stop (hb : b.Open all) (hc : c.Open all) (h : b.stop = c.stop) : b = c := by
  have hstart := Nat.le_antisymm (hb.start_le hc h) (hc.start_le hb h.symm)
  cases b
  cases c
  cases hstart
  cases h
  rfl

/-- A block that ends behind a blank line starts behind it. -/
theorem Open.start_of_blank {n : Nat} (h : b.Open all) (hblank : BlankAt all n) (hn : n < b.stop) : n < b.start := by
  by_contra hle
  exact (h.filled n (by omega) hn).not_blank hblank

/-- The completed blocks that end at an index or later, in order. -/
structure CompletedFrom (all : List Text) (n : Nat) (blocks : List Block) : Prop where
  ordered : blocks.Pairwise fun x y => x.stop < y.start
  mem_iff : ∀ x, x ∈ blocks ↔ x.Completed all ∧ n ≤ x.stop

theorem completedFrom_nil {n : Nat} (h : all.length ≤ n) : CompletedFrom all n [] := by
  refine ⟨.nil, fun x => ?_⟩
  simp only [List.not_mem_nil, false_iff, not_and]
  intro hx hstop
  obtain ⟨line, hline, _⟩ := hx.ended
  rw [List.getElem?_eq_none (by omega)] at hline
  cases hline

theorem CompletedFrom.skip {n : Nat} {blocks : List Block} (h : CompletedFrom all (n + 1) blocks)
    (hnone : ∀ x : Block, x.Completed all → x.stop ≠ n) : CompletedFrom all n blocks := by
  refine ⟨h.ordered, fun x => ?_⟩
  rw [h.mem_iff]
  refine and_congr_right fun hx => ?_
  have hne := hnone x hx
  omega

theorem CompletedFrom.cons {blocks : List Block} (h : CompletedFrom all (b.stop + 1) blocks) (hb : b.Completed all) :
    CompletedFrom all b.stop (b :: blocks) := by
  refine ⟨List.pairwise_cons.mpr ⟨fun x hx => ?_, h.ordered⟩, fun x => ?_⟩
  · obtain ⟨hcompleted, hstop⟩ := (h.mem_iff x).mp hx
    exact hcompleted.toOpen.start_of_blank hb.ended hstop
  · rw [List.mem_cons, h.mem_iff]
    constructor
    · rintro (rfl | ⟨hx, hstop⟩)
      · exact ⟨hb, Nat.le_refl _⟩
      · exact ⟨hx, Nat.le_of_succ_le hstop⟩
    · rintro ⟨hx, hstop⟩
      rcases Nat.eq_or_lt_of_le hstop with heq | hlt
      · exact Or.inl (hx.toOpen.eq_of_stop hb.toOpen heq.symm)
      · exact Or.inr ⟨hx, hlt⟩

end Block

theorem sources_filled {line : Text} (h : line.isBlank = false) (block rest : List Text) :
    (events block (line :: rest)).filterMap Event.source? = (events (block ++ [line]) rest).filterMap Event.source? := by
  simp only [events, h, Bool.not_false, ↓reduceIte, List.filterMap_cons, Event.source?]

theorem sources_blank {line : Text} (h : line.isBlank = true) (block rest : List Text) :
    (events block (line :: rest)).filterMap Event.source? =
      (if block.isEmpty then [] else [Text.join [Text.lf] block]) ++ (events [] rest).filterMap Event.source? := by
  cases hblock : block.isEmpty <;>
    simp only [events, h, hblock, Bool.not_true, Bool.false_eq_true, ↓reduceIte, List.filterMap_cons, Event.source?,
      List.nil_append, List.singleton_append]

/-- With an open block behind it, a prompt runs the texts of the completed blocks that end among the lines to come. -/
theorem sources_events {all : List Text} (rest : List Text) : ∀ b : Block, b.Open all → all.drop b.stop = rest →
    ∃ blocks, Block.CompletedFrom all b.stop blocks ∧
      (events (b.lines all) rest).filterMap Event.source? = blocks.map fun x => Text.join [Text.lf] (x.lines all) := by
  induction rest with
  | nil => exact fun b _ hrest => ⟨[], Block.completedFrom_nil (List.drop_eq_nil_iff.mp hrest), rfl⟩
  | cons line rest ih =>
    intro b hb hrest
    have hline : all[b.stop]? = some line := by
      rw [← List.head?_drop, hrest]
      rfl
    have hnext : all.drop (b.stop + 1) = rest := by
      rw [← List.drop_drop, hrest]
      rfl
    cases hblank : line.isBlank with
    | false =>
      have hfilled : FilledAt all b.stop := ⟨line, hline, (Text.isBlank_eq_false_iff line).mp hblank⟩
      obtain ⟨blocks, hblocks, hsources⟩ := ih ⟨b.start, b.stop + 1⟩ (hb.grow hfilled) hnext
      refine ⟨blocks, hblocks.skip fun x hx heq => hfilled.not_blank (heq ▸ hx.ended), ?_⟩
      rw [sources_filled hblank, ← hsources, Block.lines_grow hb.ordered hline]
    | true =>
      have hended : BlankAt all b.stop := ⟨line, hline, (Text.isBlank_iff line).mp hblank⟩
      obtain ⟨blocks, hblocks, hsources⟩ := ih ⟨b.stop + 1, b.stop + 1⟩ (Block.open_fresh hended) hnext
      rw [Block.lines_fresh] at hsources
      rw [sources_blank hblank, hsources]
      by_cases hempty : b.start = b.stop
      · -- a block that ended here would be the open one, which has no lines
        have hnone (x : Block) (hx : x.Completed all) : x.stop ≠ b.stop := by
          intro heq
          have hnonempty := hx.nonempty
          rw [hx.toOpen.eq_of_stop hb heq] at hnonempty
          omega
        refine ⟨blocks, hblocks.skip hnone, ?_⟩
        rw [hb.lines_eq_nil_iff.mpr hempty]
        rfl
      · have hcompleted : b.Completed all := ⟨hb, Nat.lt_of_le_of_ne hb.ordered hempty, hended⟩
        refine ⟨b :: blocks, hblocks.cons hcompleted, ?_⟩
        rw [if_neg (by rw [List.isEmpty_iff, hb.lines_eq_nil_iff]; exact hempty)]
        rfl

/-- A prompt does with lines what `events` says, in whatever session and on whatever machine it starts. The sources among
the events are the texts of the completed blocks, in order, and no two blocks share a line. Before each line and before
the end stands the sign that goes with the line before. -/
theorem takeAll_completed (lines : List Text) :
    (∀ session machine, outcome ((start session machine).1.takeAll lines) = perform session machine (events [] lines)) ∧
      (∃ blocks : List Block, blocks.Pairwise (fun x y => x.stop < y.start) ∧
        (∀ x, x ∈ blocks ↔ x.Completed lines) ∧
        (events [] lines).filterMap Event.source? = blocks.map fun x => Text.join [Text.lf] (x.lines lines)) ∧
      (events [] lines).filterMap Event.sign? =
        utf8 "> " :: lines.map fun line => if line.trim = [] then utf8 "> " else utf8 ". " := by
  refine ⟨?_, ?_, signs_events lines []⟩
  · intro session machine
    obtain ⟨hsession, hmachine, hblock⟩ := start_block session machine
    rw [outcome_takeAll, hsession, hmachine, hblock]
  · have hopen : Block.Open ⟨0, 0⟩ lines := ⟨Nat.le_refl _, fun i _ hi => absurd hi (Nat.not_lt_zero i), Or.inl rfl⟩
    obtain ⟨blocks, hblocks, hsources⟩ := sources_events lines ⟨0, 0⟩ hopen rfl
    refine ⟨blocks, hblocks.ordered, fun x => ?_, hsources⟩
    rw [hblocks.mem_iff, and_iff_left (Nat.zero_le _)]

example : (events [] [utf8 "a", utf8 "b", utf8 " \t", [], utf8 "c", [], utf8 "d"]).filterMap Event.source? =
    [utf8 "a\nb", utf8 "c"] := by
  decide +kernel

end Prompt

end EnglishScript
