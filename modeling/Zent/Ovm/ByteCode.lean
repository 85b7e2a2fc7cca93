import Mathlib.Data.List.Chain
import Zent.Wire.MsgTx

/-!
# Parsing contract code

`ByteCodeParser` of `omega/ovm/contract.go` keeps one instruction, `tmp`, for the whole text and
appends it at the end of every line. A line without an instruction leaves `tmp` as it was.
-/

namespace Zent.Ovm.ByteCode

open List

/-- `inst` -/
structure Inst where
  op : UInt8
  param : Bytes
  deriving DecidableEq

/-- `var tmp inst` -/
def Inst.zero : Inst := ⟨0, []⟩

/-- Blanks, tabs and carriage returns. -/
def skipped (c : UInt8) : Bool := c == 32 || c == 9 || c == 13

/-- The loop of `ByteCodeParser`. While `comment` holds it is in the inner one, which goes on to
the end of the line. -/
def parse : Bytes → Inst → (empty comment : Bool) → List Inst
  | [], tmp, empty, _ => if empty then [] else [tmp]
  | c :: code, tmp, empty, comment =>
    if comment then parse code tmp empty (c != 10)
    else if skipped c then parse code tmp empty false
    else if c ≠ 59 ∧ c ≠ 10 then
      if empty then parse code ⟨c, []⟩ false false
      else parse code ⟨tmp.op, tmp.param ++ [c]⟩ false false
    else tmp :: parse code tmp true (c != 10)

def byteCodeParser (code : Bytes) : List Inst := parse code .zero true false

/-- A text, cut at its line feeds. -/
structure CodeText where
  lines : List Bytes
  /-- what follows the last line feed -/
  last : Bytes
  clean : 10 ∉ last ∧ ∀ l ∈ lines, 10 ∉ l

def CodeText.text (t : CodeText) : Bytes := t.lines.flatMap (· ++ [10]) ++ t.last

/-- Nothing after the last line feed is no line. -/
def CodeText.allLines (t : CodeText) : List Bytes :=
  t.lines ++ if t.last = [] then [] else [t.last]

/-- What is not blank before the `;`. -/
def content (l : Bytes) : Bytes := (l.takeWhile (· != 59)).filter (!skipped ·)

/-- The instruction of a line with this content, or else the one given. -/
def instOf (tmp : Inst) : Bytes → Inst
  | [] => tmp
  | op :: param => ⟨op, param⟩

/-- The instruction at the end of a line; it was begun unless `empty`. -/
def finish (empty : Bool) (tmp : Inst) (c : Bytes) : Inst :=
  if empty then instOf tmp c else ⟨tmp.op, tmp.param ++ c⟩

/-- One line of the second text has a comment more. -/
def Commented (t t' : CodeText) : Prop :=
  (t'.last = t.last ∧ ∃ before l after c, t.lines = before ++ l :: after ∧
    t'.lines = before ++ (l ++ 59 :: c) :: after) ∨
  t'.lines = t.lines ∧ t.last ≠ [] ∧ ∃ c, t'.last = t.last ++ 59 :: c

/-- Every line gives its own instruction, and a blank one what it gives as the first line. -/
def LineByLine (t : CodeText) : Prop :=
  byteCodeParser t.text = t.allLines.map (instOf .zero ∘ content) ∧
    ∀ t', Commented t t' → byteCodeParser t'.text = byteCodeParser t.text

/-- After an instruction other than the zero one comes another one, and a blank end has a `;`. -/
def Plain (t : CodeText) : Prop :=
  (t.allLines.map content).IsChain (fun c next => next = [] → c = [] ∨ c = [0]) ∧
    (content t.last = [] → t.last = [] ∨ 59 ∈ t.last)

/-- Every text is one. -/
theorem exists_text (code : Bytes) : ∃ t : CodeText, t.text = code := by
  induction code with
  | nil => exact ⟨⟨[], [], by simp⟩, rfl⟩
  | cons c code ih =>
    obtain ⟨⟨lines, last, hlast, hlines⟩, rfl⟩ := ih
    by_cases hc : c = 10
    · exact ⟨⟨[] :: lines, last, hlast, by simpa using hlines⟩, by simp [CodeText.text, hc]⟩
    cases lines with
    | nil => exact ⟨⟨[], c :: last, by simp [Ne.symm hc, hlast]⟩, rfl⟩
    | cons l lines =>
      refine ⟨⟨(c :: l) :: lines, last, hlast, ?_⟩, rfl⟩
      simpa [Ne.symm hc] using hlines

section

variable {l : Bytes} (rest : Bytes) (tmp : Inst)

/-- A comment, to the end of its line. -/
theorem parse_comment (hl : 10 ∉ l) :
    parse (l ++ 10 :: rest) tmp true true = parse rest tmp true false ∧
      parse l tmp true true = [] := by
  induction l with
  | nil => simp [parse]
  | cons c l ih =>
    obtain ⟨hc, hl⟩ := not_or.mp (mt mem_cons.mpr hl)
    simpa [parse, bne_iff_ne.mpr (Ne.symm hc)] using ih hl

/-- The rest of a line; `empty` is whether its operation code is still to come. -/
theorem parse_line (empty : Bool) (hl : 10 ∉ l) :
    parse (l ++ 10 :: rest) tmp empty false =
        finish empty tmp (content l) :: parse rest (finish empty tmp (content l)) true false ∧
      parse l tmp empty false =
        if empty ∧ content l = [] ∧ 59 ∉ l then [] else [finish empty tmp (content l)] := by
  induction l generalizing tmp empty with
  | nil => cases empty <;> simp [parse, finish, instOf, content, skipped]
  | cons c l ih =>
    obtain ⟨hc, hl⟩ := not_or.mp (mt mem_cons.mpr hl)
    by_cases hskip : skipped c = true
    · have hne : c ≠ 59 := by rintro rfl; cases hskip
      simpa [parse, content, hskip, hne, Ne.symm hne] using ih tmp empty hl
    by_cases hsemi : c = 59
    · cases empty <;>
        simpa [parse, finish, instOf, content, skipped, hsemi] using parse_comment rest tmp hl
    cases empty with
    | false =>
      simpa [parse, finish, content, hskip, hsemi, Ne.symm hc] using
        ih ⟨tmp.op, tmp.param ++ [c]⟩ false hl
    | true =>
      simpa [parse, finish, instOf, content, hskip, hsemi, Ne.symm hc] using ih ⟨c, []⟩ false hl

end

/-- The instructions in force at the lines with these contents. -/
def inForce : Inst → List Bytes → List Inst
  | _, [] => []
  | tmp, c :: cs => instOf tmp c :: inForce (instOf tmp c) cs

/-- The lines at whose end the parser appends. -/
def CodeText.ended (t : CodeText) : List Bytes :=
  t.lines ++ if content t.last = [] ∧ 59 ∉ t.last then [] else [t.last]

/-- **What the parser returns**: for every line that is ended the last instruction up to it. -/
theorem byteCodeParser_eq (t : CodeText) :
    byteCodeParser t.text = inForce .zero (t.ended.map content) := by
  obtain ⟨lines, last, hlast, hlines⟩ := t
  show parse _ _ _ _ = _
  generalize Inst.zero = tmp
  induction lines generalizing tmp with
  | nil =>
    refine (parse_line [] tmp true hlast).2.trans ?_
    simp only [CodeText.ended, true_and]
    split <;> rfl
  | cons l lines ih =>
    rw [forall_mem_cons] at hlines
    have hline := (parse_line (CodeText.text ⟨lines, last, hlast, hlines.2⟩) tmp true hlines.1).1
    rw [ih hlines.2] at hline
    simpa [CodeText.text, CodeText.ended, inForce, finish] using hline

theorem length_inForce : ∀ (tmp : Inst) (cs : List Bytes), (inForce tmp cs).length = cs.length
  | _, [] => rfl
  | _, _ :: _ => congrArg (· + 1) (length_inForce _ _)

theorem inForce_eq_map : ∀ (tmp : Inst) (cs : List Bytes),
    inForce tmp cs = cs.map (instOf .zero) ↔ (∀ next ∈ cs.head?, next = [] → tmp = .zero) ∧
      cs.IsChain fun c next => next = [] → c = [] ∨ c = [0]
  | _, [] => by simp [inForce]
  | tmp, c :: cs => by
    rw [inForce, map_cons, cons.injEq, inForce_eq_map, isChain_cons]
    cases c with
    | nil => simp +contextual [instOf]
    | cons op param => simp [instOf, Inst.zero]

theorem content_comment (l c : Bytes) : content (l ++ 59 :: c) = content l := by
  rw [content, content, takeWhile_append]
  split
  · rename_i h
    simp [(List.takeWhile_prefix _).eq_of_length h]
  · rfl

/-- **Line by line.** Every line of a text gives its own instruction, and a comment can be added to
any line, exactly where no blank line follows an instruction and the text does not end in blanks.
Elsewhere the instruction before is given once more. -/
theorem lineByLine_iff (t : CodeText) : LineByLine t ↔ Plain t := by
  by_cases hblank : content t.last = [] → t.last = [] ∨ 59 ∈ t.last
  · have hended : t.ended = t.allLines := by
      by_cases hne : t.last = []
      · simp [CodeText.ended, CodeText.allLines, hne, content]
      · simpa [CodeText.ended, CodeText.allLines, hne] using hblank
    rw [LineByLine, Plain, byteCodeParser_eq, hended, ← map_map, inForce_eq_map]
    simp only [implies_true, true_and]
    refine and_congr_right' (iff_of_true (fun t' ht => ?_) hblank)
    rw [byteCodeParser_eq]
    rcases ht with ⟨hl, before, l, after, c, h, h'⟩ | ⟨hl, hne, c, hc⟩
    · simp [← hended, CodeText.ended, h, h', hl, content_comment]
    · simp [CodeText.ended, CodeText.allLines, hl, hc, hne, content_comment]
  · refine iff_of_false (fun h => ?_) fun h => hblank h.2
    have hlen := congrArg length (byteCodeParser_eq t ▸ h.1)
    push Not at hblank
    simp [length_inForce, CodeText.ended, CodeText.allLines, hblank] at hlen

/-- The line feed alone repeats the instruction. -/
theorem blank_repeats : byteCodeParser [65, 10, 10] = [⟨65, []⟩, ⟨65, []⟩] ∧
    ¬LineByLine ⟨[[65], []], [], by decide⟩ :=
  ⟨by decide, fun h => absurd h.1 (by decide)⟩

end Zent.Ovm.ByteCode
