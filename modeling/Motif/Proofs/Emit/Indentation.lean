import Motif.Proofs.Emit.Declared

/-!
# Indentation

The code of a module hangs on the indentation in its blanks only. The generator makes the same program for every
indentation, and the texts of a program are the same once the blanks at the beginnings of lines are taken away
(`Alike`). A text is gone through with a flag that says whether all of the current line has been blank so far.
-/

namespace Motif

open List

namespace Text

/-- The lines of a text without the blanks that they begin with. -/
def flushLines (text : String) : List (List Char) := (cutLines text.toList).map (dropWhile (· == ' '))

/-! ## Blanks at the beginnings of lines -/

/-- A text without the blanks at the beginnings of its lines. -/
def flush (blank : Bool) : List Char → List Char
  | [] => []
  | c :: cs => (if blank && c == ' ' then [] else [c]) ++ flush (c == '\n' || blank && c == ' ') cs

def blankAfter (blank : Bool) : List Char → Bool
  | [] => blank
  | c :: cs => blankAfter (c == '\n' || blank && c == ' ') cs

theorem flush_append (blank : Bool) (xs ys : List Char) :
    flush blank (xs ++ ys) = flush blank xs ++ flush (blankAfter blank xs) ys := by
  induction xs generalizing blank with
  | nil => rfl
  | cons x xs ih => rw [cons_append, flush, flush, blankAfter, ih, append_assoc]

theorem blankAfter_append (blank : Bool) (xs ys : List Char) :
    blankAfter blank (xs ++ ys) = blankAfter (blankAfter blank xs) ys := by
  induction xs generalizing blank with
  | nil => rfl
  | cons x xs ih => rw [cons_append, blankAfter, ih, blankAfter]

theorem cutLines_flush (cs : List Char) : ∃ line lines, cutLines cs = line :: lines ∧
      cutLines (flush false cs) = line :: lines.map (dropWhile (· == ' ')) ∧
      cutLines (flush true cs) = (line :: lines).map (dropWhile (· == ' ')) := by
  induction cs with
  | nil => exact ⟨[], [], rfl, rfl, rfl⟩
  | cons c cs ih =>
    obtain ⟨line, lines, hcut, hfalse, htrue⟩ := ih
    have hcons (c : Char) (cs : List Char) : cutLines (c :: cs) = consLine c (cutLines cs) := rfl
    by_cases hline : c = '\n'
    · subst hline
      exact ⟨[], line :: lines, by rw [hcons, hcut]; rfl, by simp [flush, hcons, htrue, consLine],
        by simp [flush, hcons, htrue, consLine]⟩
    · have hstays : (c == '\n') = false := beq_eq_false_iff_ne.mpr hline
      refine ⟨c :: line, lines, by simp [hcons, hcut, consLine, hline], ?_, ?_⟩
      · simp [flush, hcons, hline, hstays, hfalse, consLine]
      · by_cases hblank : c = ' '
        · simp [flush, hblank, htrue]
        · have hshows : (c == ' ') = false := beq_eq_false_iff_ne.mpr hblank
          simp [flush, hcons, hline, hstays, hshows, hfalse, consLine]

theorem flushLines_eq (text : String) : flushLines text = cutLines (flush true text.toList) := by
  obtain ⟨line, lines, hcut, -, htrue⟩ := cutLines_flush text.toList
  rw [flushLines, hcut, htrue]

theorem isPrefixOf_flush {p : List Char} (hp : '\n' ∉ p) (cs : List Char) :
    p.isPrefixOf (flush false cs) = p.isPrefixOf cs := by
  induction p generalizing cs with
  | nil => simp
  | cons q p ih =>
    obtain ⟨hq, hp⟩ := not_or.mp (mem_cons.not.mp hp)
    cases cs with
    | nil => rfl
    | cons c cs =>
      by_cases hqc : q = c
      · subst hqc
        have hline : (q == '\n') = false := beq_eq_false_iff_ne.mpr (Ne.symm hq)
        simp [flush, hline, ih hp]
      · have hdiffers : (q == c) = false := beq_eq_false_iff_ne.mpr hqc
        simp [flush, isPrefixOf, hdiffers]

/-- Texts that differ in blanks at the beginnings of lines only. -/
def AlikeAt (blank : Bool) (a b : List Char) : Prop :=
  flush blank a = flush blank b ∧ blankAfter blank a = blankAfter blank b

variable {a b : List Char} {blank : Bool}

theorem AlikeAt.append {a' b' : List Char} (h : AlikeAt blank a b)
    (h' : AlikeAt (blankAfter blank b) a' b') : AlikeAt blank (a ++ a') (b ++ b') := by
  rw [AlikeAt, flush_append, flush_append, blankAfter_append, blankAfter_append, h.1, h.2, h'.1, h'.2]
  exact ⟨rfl, rfl⟩

theorem AlikeAt.trans {c : List Char} (h : AlikeAt blank a b) (h' : AlikeAt blank b c) :
    AlikeAt blank a c := ⟨h.1.trans h'.1, h.2.trans h'.2⟩

theorem AlikeAt.symm (h : AlikeAt blank a b) : AlikeAt blank b a := ⟨h.1.symm, h.2.symm⟩

theorem alikeAt_replicate (k : Nat) (cs : List Char) : AlikeAt true (replicate k ' ' ++ cs) cs := by
  induction k with
  | zero => exact ⟨rfl, rfl⟩
  | succ k ih => exact ih

theorem alikeAt_intercalate {as bs : List (List Char)} (h : Forall₂ (AlikeAt true) as bs) :
    AlikeAt true (['\n'].intercalate as) (['\n'].intercalate bs) := by
  induction h with
  | nil => exact ⟨rfl, rfl⟩
  | @cons a b as bs hab hrest ih =>
    cases hrest with
    | nil => simpa using hab
    | cons hnext hrest =>
      rw [intercalate_cons_cons, intercalate_cons_cons, append_assoc, append_assoc]
      refine hab.append (.append ⟨rfl, rfl⟩ ?_)
      simpa [blankAfter] using ih

theorem intercalate_cutLines (cs : List Char) : ['\n'].intercalate (cutLines cs) = cs := by
  induction cs with
  | nil => rfl
  | cons c cs ih =>
    obtain ⟨line, lines, hcut, -, -⟩ := cutLines_flush cs
    have hcons : cutLines (c :: cs) = consLine c (line :: lines) := congrArg (consLine c) hcut
    rw [hcut] at ih
    rw [hcons, ← ih]
    by_cases hline : c = '\n'
    · simp [consLine, hline]
    · cases lines <;> simp [consLine, hline]

end Text

namespace Script

open Text

/-- Texts that are alike wherever they stand. -/
def Alike (a b : String) : Prop := ∀ blank, AlikeAt blank a.toList b.toList

theorem Alike.refl (a : String) : Alike a a := fun _ => ⟨rfl, rfl⟩

theorem Alike.append {a b a' b' : String} (h : Alike a b) (h' : Alike a' b') : Alike (a ++ a') (b ++ b') := by
  intro blank
  rw [String.toList_append, String.toList_append]
  exact (h blank).append (h' _)

theorem Alike.intercalate (sep : String) {as bs : List String} (h : Forall₂ Alike as bs) :
    Alike (sep.intercalate as) (sep.intercalate bs) := by
  induction h with
  | nil => exact .refl _
  | cons hab hrest ih =>
    cases hrest with
    | nil => simpa using hab
    | cons hnext hrest =>
      rw [String.intercalate_cons_cons, String.intercalate_cons_cons]
      exact (hab.append (.refl sep)).append ih

theorem Alike.startsLikeStatement {a b : String} (h : Alike a b) :
    startsLikeStatement a = startsLikeStatement b := by
  have hstart {p : List Char} (hp : '\n' ∉ p) : p.isPrefixOf a.toList = p.isPrefixOf b.toList := by
    rw [← isPrefixOf_flush hp, (h false).1, isPrefixOf_flush hp]
  rw [Script.startsLikeStatement, Script.startsLikeStatement, hstart (by decide), hstart (by decide)]

namespace Code

theorem alikeAt_padLine (pad : Nat) (text : String) : AlikeAt true (padLine pad text).toList text.toList := by
  have hlines : Forall₂ (AlikeAt true)
      ((cutLines text.toList).map fun part => if part.isEmpty then [] else replicate pad ' ' ++ part)
      (cutLines text.toList) := by
    rw [forall₂_map_left_iff]
    refine forall₂_same.mpr fun part _ => ?_
    split
    · next hempty => rw [isEmpty_iff.mp hempty]; exact ⟨rfl, rfl⟩
    · exact alikeAt_replicate pad part
  have halike := alikeAt_intercalate hlines
  rw [intercalate_cutLines] at halike
  rw [padLine, String.toList_intercalate, map_map]
  simpa [Function.comp_def] using halike

def Alike (a b : Code) : Prop := Forall₂ (fun x y => x.1 = y.1 ∧ Script.Alike x.2 y.2) a.lines b.lines

variable {a b : Code} {as bs : List (String × Code)}

theorem Alike.append {a' b' : Code} (h : Alike a b) (h' : Alike a' b') : Alike (a ++ a') (b ++ b') :=
  rel_append h h'

theorem Alike.line {a b : String} (h : Script.Alike a b) : Alike (.line a) (.line b) := .cons ⟨rfl, h⟩ .nil

theorem Alike.nested (h : Alike a b) : Alike a.nested b.nested := by
  rw [Alike, Code.nested, Code.nested, forall₂_map_left_iff, forall₂_map_right_iff]
  exact h.imp fun _ _ hxy => ⟨congrArg (· + 1) hxy.1, hxy.2⟩

theorem Alike.isEmpty (h : Alike a b) : a.isEmpty = b.isEmpty := by
  obtain ⟨a⟩ := a
  obtain ⟨b⟩ := b
  cases h <;> rfl

theorem Alike.render (h : Alike a b) (i j base : Nat) :
    AlikeAt true (a.render i base).toList (b.render j base).toList := by
  rw [Code.render, Code.render, String.toList_intercalate, String.toList_intercalate, map_map, map_map]
  refine alikeAt_intercalate ?_
  rw [forall₂_map_left_iff, forall₂_map_right_iff]
  exact h.imp fun _ _ hxy => (alikeAt_padLine _ _).trans ((hxy.2 true).trans (alikeAt_padLine _ _).symm)

theorem Alike.functionText (h : Alike a b) (head : String) (i j : Nat) :
    Script.Alike (Code.functionText head a i) (Code.functionText head b j) := by
  unfold Code.functionText
  rw [h.isEmpty]
  split
  · exact .refl _
  · intro blank
    simp only [String.toList_append, append_assoc]
    refine .append ⟨rfl, rfl⟩ (.append ⟨rfl, rfl⟩ (.append ?_ ⟨rfl, rfl⟩))
    have hbrace (blank : Bool) : blankAfter blank " \x7b\n".toList = true := by cases blank <;> rfl
    rw [hbrace]
    exact h.render i j 1

theorem Alike.block {head head' : String} (hhead : Script.Alike head head') (h : Alike a b) :
    Alike (.block head a) (.block head' b) :=
  ((Alike.line (hhead.append (.refl _))).append h.nested).append (.line (.refl _))

theorem Alike.chainRest (h : Forall₂ (fun x y => Script.Alike x.1 y.1 ∧ Alike x.2 y.2) as bs) :
    Alike (Code.chainRest as) (Code.chainRest bs) := by
  induction h with
  | nil => exact .line (.refl _)
  | cons hxy _ ih =>
    exact ((Alike.line (((Script.Alike.refl _).append hxy.1).append (.refl _))).append hxy.2.nested).append ih

theorem Alike.chain (h : Forall₂ (fun x y => Script.Alike x.1 y.1 ∧ Alike x.2 y.2) as bs) :
    Alike (Code.chain as) (Code.chain bs) := by
  cases h with
  | nil => exact .nil
  | cons hxy hrest =>
    exact ((Alike.line (hxy.1.append (.refl _))).append hxy.2.nested).append (chainRest hrest)

end Code

/-! ## Programs -/

section Programs

variable (i j : Nat)

mutual

theorem alike_text : ∀ e : Expr, Alike (e.text i) (e.text j)
  | .name _ => .refl _
  | .literal _ => .refl _
  | .paren e => ((Alike.refl _).append (alike_text e)).append (.refl _)
  | .bang e => (Alike.refl _).append (alike_text e)
  | .minus e => (Alike.refl _).append (alike_text e)
  | .binary _ left right =>
    ((((alike_text left).append (.refl _)).append (.refl _)).append (.refl _)).append (alike_text right)
  | .cond test yes no =>
    ((((alike_text test).append (.refl _)).append (alike_text yes)).append (.refl _)).append (alike_text no)
  | .assign _ value => ((Alike.refl _).append (.refl _)).append (alike_text value)
  | .comma first second => ((alike_text first).append (.refl _)).append (alike_text second)
  | .all tests => .intercalate _ (alike_exprTexts tests)
  | .any tests => .intercalate _ (alike_exprTexts tests)
  | .array items => ((Alike.refl _).append (.intercalate _ (alike_exprTexts items))).append (.refl _)
  | .object [] => .refl _
  | .object (p :: ps) => ((Alike.refl _).append (.intercalate _ (alike_propertyTexts (p :: ps)))).append
    (.refl _)
  | .member target _ => ((alike_text target).append (.refl _)).append (.refl _)
  | .index target key => (((alike_text target).append (.refl _)).append (alike_text key)).append (.refl _)
  | .call callee args =>
    (((alike_text callee).append (.refl _)).append (.intercalate _ (alike_exprTexts args))).append (.refl _)
  | .function isGenerator params body => (alike_bodyCode body).functionText
    (functionHead isGenerator params) i j
  | .yield e => (Alike.refl _).append (alike_text e)
  | .yieldAll e => (Alike.refl _).append (alike_text e)

theorem alike_exprTexts : ∀ es : List Expr, Forall₂ Alike (exprTexts i es) (exprTexts j es)
  | [] => .nil
  | e :: es => .cons (alike_text e) (alike_exprTexts es)

theorem alike_propertyText : ∀ p : Property, Alike (p.text i) (p.text j)
  | .named _ value => ((Alike.refl _).append (.refl _)).append (alike_text value)
  | .computed key value =>
    (((Alike.refl _).append (alike_text key)).append (.refl _)).append (alike_text value)

theorem alike_propertyTexts : ∀ ps : List Property, Forall₂ Alike (propertyTexts i ps) (propertyTexts j ps)
  | [] => .nil
  | p :: ps => .cons (alike_propertyText p) (alike_propertyTexts ps)

theorem alike_code : ∀ s : Stmt, Code.Alike (s.code i) (s.code j)
  | .directive _ => .line (.refl _)
  | .constant .. => .line (.refl _)
  | .declare _ => .line (.refl _)
  | .assign target value =>
    .line ((((alike_text target).append (.refl _)).append (alike_text value)).append (.refl _))
  | .expr e => by
    have he := alike_text e
    rw [Stmt.code, Stmt.code, he.startsLikeStatement]
    refine .line ?_
    split
    · exact ((Alike.refl _).append he).append (.refl _)
    · exact he.append (.refl _)
  | .ret e => .line (((Alike.refl _).append (alike_text e)).append (.refl _))
  | .branch arms otherwise => by
    have hlast := alike_bodyCode otherwise
    rw [Stmt.code, Stmt.code]
    refine .chain (rel_append (alike_armCodes "if (" arms) ?_)
    rw [hlast.isEmpty]
    split
    · exact .nil
    · exact .cons ⟨.refl _, hlast⟩ .nil
  | .forOf _ iterator body =>
    .block ((((Alike.refl _).append (.refl _)).append (alike_text iterator)).append (.refl _))
      (alike_bodyCode body)
  | .continueUnless test => .line (((Alike.refl _).append (alike_text test)).append (.refl _))
  | .throwError _ => .line (.refl _)

theorem alike_bodyCode : ∀ body : List Stmt, Code.Alike (bodyCode i body) (bodyCode j body)
  | [] => .nil
  | s :: body => (alike_code s).append (alike_bodyCode body)

theorem alike_armCodes (keyword : String) : ∀ arms : List (Expr × List Stmt),
    Forall₂ (fun x y => Alike x.1 y.1 ∧ Code.Alike x.2 y.2) (armCodes i keyword arms) (armCodes j keyword arms)
  | [] => .nil
  | (test, body) :: arms =>
    .cons ⟨((Alike.refl _).append (alike_text test)).append (.refl _), alike_bodyCode body⟩
      (alike_armCodes _ arms)

end

end Programs

end Script

namespace Emit

theorem run_program_indent (options : Options) (indent : Nat) (annotations : Annotations) (root : Node) :
    ((program root).run { options := { options with indent }, annotations }).run {} =
      ((program root).run { options, annotations }).run {} := by
  let p : Premises :=
    { setting := { options, annotations }, plain := False, blocks := False, ready := False,
      inBlock := False, indent }
  have hgrants (n : Node) : p.Grants n [] :=
    ⟨False.elim, False.elim, False.elim, fun _ _ _ _ => trivial, False.elim, False.elim⟩
  exact (programBy_does p fun n _ => makes_compile_self n (hgrants n) nofun).1

/-- Whatever the tree and its annotations, code is generated for two indentations or for neither. If there is
    none, the reason is the same. If there is, the same library functions are used, and the texts have the same
    lines, up to the blanks at their beginnings. -/
theorem generate_up_to_indent (options : Options) (indent : Nat) (annotations : Annotations) (root : Node) :
    match generate options annotations root, generate { options with indent } annotations root with
    | .ok m, .ok m' => m'.imports = m.imports ∧ Text.flushLines m'.text = Text.flushLines m.text
    | .error e, .error e' => e' = e
    | _, _ => False := by
  rw [generate, generate, run_program_indent options indent annotations root]
  cases ((program root).run { options, annotations }).run {} with
  | error e => exact rfl
  | ok result =>
    obtain ⟨⟨e, imports⟩, s⟩ := result
    refine ⟨rfl, ?_⟩
    show Text.flushLines (e.text indent) = Text.flushLines (e.text options.indent)
    rw [Text.flushLines_eq, Text.flushLines_eq, (Script.alike_text indent options.indent e true).1]

end Emit

end Motif
