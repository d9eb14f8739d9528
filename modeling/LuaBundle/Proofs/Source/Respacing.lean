import LuaBundle.Proofs.Source.Site

/-! A source with other blanks and comments. The lexemes of its code are the same; only a first line
for the operating system, and what stands in strings, is no place for blanks and comments. -/

namespace LuaBundle

open Text
open Lexeme (Spacing)

/-- Blanks and comments in a row, at least one. -/
def IsRun (ls : List Lexeme) : Prop := ls ≠ [] ∧ ∀ l ∈ ls, l.isGap = true

/-- A text made of lexemes, in which each longest run of blanks and comments stands as it is, or is
another one, which starts with a blank and in which every comment has its end. -/
inductive Respaced : List Lexeme → Text → Prop
  | nil : Respaced [] []
  | code {l : Lexeme} {ls : List Lexeme} {t : Text} (hl : l.isGap = false) (h : Respaced ls t) :
    Respaced (l :: ls) (l.text ++ t)
  | kept {run ls : List Lexeme} {t : Text} (hrun : IsRun run)
    (hnext : ∀ l ∈ ls.head?, l.isGap = false) (h : Respaced ls t) :
    Respaced (run ++ ls) (run.flatMap Lexeme.text ++ t)
  | replaced {run ls : List Lexeme} {u : UInt16} {gap t : Text} (hrun : IsRun run)
    (hnext : ∀ l ∈ ls.head?, l.isGap = false) (hu : isBlank u = true) (hgap : Spacing gap)
    (h : Respaced ls t) : Respaced (run ++ ls) (u :: gap ++ t)

/-- A source in which other blanks and comments stand between the lexemes of the program. -/
def RespacedSource (t t' : Text) : Prop :=
  ∃ s, Respaced (lexemes (RequireSite.program t)) s ∧ t' = RequireSite.prologue t ++ s

namespace Lexeme

theorem Formed.text_ne_nil {l : Lexeme} (h : l.Formed) : l.text ≠ [] := by
  cases l with
  | comment c =>
    rcases h with h | ⟨body, rfl, _⟩
    · cases h <;> simp [text]
    · simp [text]
  | word w => exact h.1
  | openComment s => exact h.elim
  | openString s => exact h.elim
  | _ => simp [text, opening]

theorem Formed.isOpen {l : Lexeme} (h : l.Formed) : l.isOpen = false := by
  cases l <;> first | rfl | exact h.elim

/-- What a lexeme that is passed over starts with. -/
theorem Formed.head?_gap {l : Lexeme} (h : l.Formed) (hgap : l.isGap = true) :
    ∃ u, l.text.head? = some u ∧ (isBlank u = true ∨ u = dash) := by
  cases l with
  | blank u => exact ⟨u, rfl, .inl h⟩
  | comment c =>
    refine ⟨dash, ?_, .inr rfl⟩
    rcases h with h | ⟨body, rfl, _⟩
    · cases h <;> rfl
    · rfl
  | _ => cases hgap

theorem Formed.eq_equals {l : Lexeme} (h : l.Formed) (hhead : l.text.head? = some equals) :
    l = .symbol equals := by
  cases l with
  | blank u =>
    obtain rfl := Option.some.inj hhead
    have hblank : isBlank equals = true := h
    exact absurd hblank (by decide)
  | comment c =>
    obtain ⟨u, hu, hdash⟩ := h.head?_gap rfl
    obtain rfl := Option.some.inj (hu.symm.trans hhead)
    exact absurd hdash (by decide)
  | word w =>
    obtain ⟨rest, rfl⟩ := List.head?_eq_some_iff.mp hhead
    exact absurd (h.2 equals List.mem_cons_self) (by decide)
  | quoted q body =>
    obtain rfl := Option.some.inj hhead
    exact absurd h.1 (by decide)
  | bracketed level body => exact absurd (Option.some.inj hhead) (by decide)
  | symbol u => rw [Option.some.inj hhead]
  | openComment s => exact h.elim
  | openString s => exact h.elim

/-- Blanks and comments are read one by one, whatever follows them. -/
theorem Spacing.lexemes_append {gap : Text} (h : Spacing gap) :
    ∃ ls, (∀ l ∈ ls, l.isGap = true ∧ l.Formed) ∧
      ∀ rest, lexemes (gap ++ rest) = ls ++ lexemes rest := by
  induction h with
  | nil => exact ⟨[], by simp, fun _ => rfl⟩
  | @blank u t hu _ ih =>
    obtain ⟨ls, hls, hrest⟩ := ih
    refine ⟨.blank u :: ls, List.forall_mem_cons.mpr ⟨⟨rfl, hu⟩, hls⟩, fun rest => ?_⟩
    have hread : lexemes (u :: (t ++ rest)) = .blank u :: lexemes (t ++ rest) :=
      lexemes_formed (l := .blank u) hu trivial
    rw [List.cons_append, hread, hrest]
    rfl
  | @comment c t hc _ ih =>
    obtain ⟨ls, hls, hrest⟩ := ih
    refine ⟨.comment c :: ls, List.forall_mem_cons.mpr ⟨⟨rfl, .inl hc⟩, hls⟩, fun rest => ?_⟩
    rw [List.append_assoc, lexemes_comment hc, hrest]
    rfl

end Lexeme

/-! How the text after a lexeme starts. -/

section Start

variable {run ls : List Lexeme} {t : Text}

theorem IsRun.exists_cons (h : IsRun run) : ∃ l more, run = l :: more ∧ l.isGap = true := by
  obtain ⟨l, more, rfl⟩ := List.exists_cons_of_ne_nil h.1
  exact ⟨l, more, rfl, h.2 l List.mem_cons_self⟩

theorem Respaced.eq_nil (h : Respaced ls t) (hls : ls = []) : t = [] := by
  cases h with
  | nil => rfl
  | code => cases hls
  | kept hrun => exact absurd (List.append_eq_nil_iff.mp hls).1 hrun.1
  | replaced hrun => exact absurd (List.append_eq_nil_iff.mp hls).1 hrun.1

theorem head?_flatMap_text {l : Lexeme} (hl : l.Formed) (t : Text) :
    (l.text ++ t).head? = l.text.head? := by
  obtain ⟨u, rest, htext⟩ := List.exists_cons_of_ne_nil hl.text_ne_nil
  rw [htext]
  rfl

/-- A text with other blanks starts with the same unit, or with a blank. -/
theorem Respaced.head? (h : Respaced ls t) (hls : ∀ l ∈ ls, l.Formed) :
    t.head? = (ls.flatMap Lexeme.text).head? ∨ ∃ u ∈ t.head?, isBlank u = true := by
  cases h with
  | nil => exact .inl rfl
  | @code l ls t =>
    have hl := hls l List.mem_cons_self
    rw [List.flatMap_cons, head?_flatMap_text hl, head?_flatMap_text hl]
    exact .inl rfl
  | kept hrun =>
    obtain ⟨l, more, rfl, _⟩ := hrun.exists_cons
    have hl := hls l (by simp)
    rw [List.flatMap_append, List.flatMap_cons, List.append_assoc, List.append_assoc,
      head?_flatMap_text hl, head?_flatMap_text hl]
    exact .inl rfl
  | @replaced _ _ u _ _ _ _ hu => exact .inr ⟨u, rfl, hu⟩

/-- Where other blanks leave a bracket after equality signs, there was one. -/
theorem Respaced.prefix_opening {level : Nat} (h : Respaced ls t) (hls : ∀ l ∈ ls, l.Formed)
    (hopens : List.replicate level equals ++ [leftBracket] <+: t) :
    List.replicate level equals ++ [leftBracket] <+: ls.flatMap Lexeme.text := by
  have hblank : isBlank leftBracket = false ∧ isBlank equals = false := by decide
  induction level generalizing ls t with
  | zero =>
    obtain ⟨rest, rfl⟩ := hopens
    rcases h.head? hls with hhead | ⟨u, hu, hblank'⟩
    · obtain ⟨more, hmore⟩ := List.head?_eq_some_iff.mp hhead.symm
      exact ⟨more, hmore.symm⟩
    · obtain rfl := Option.some.inj hu
      rw [hblank.1] at hblank'
      cases hblank'
  | succ level ih =>
    obtain ⟨rest, hrest⟩ := hopens
    rw [List.replicate_succ, List.cons_append, List.cons_append] at hrest
    cases h with
    | nil => cases hrest
    | @code l ls t hl h =>
      have hform := hls l List.mem_cons_self
      have hhead : l.text.head? = some equals := by
        rw [← head?_flatMap_text hform t, ← hrest]
        rfl
      obtain rfl := hform.eq_equals hhead
      obtain ⟨more, hmore⟩ :=
        ih h (fun l hl => hls l (List.mem_cons_of_mem _ hl)) ⟨rest, (List.cons.inj hrest).2⟩
      exact ⟨more, by rw [List.flatMap_cons, ← hmore]; rfl⟩
    | @kept run ls t hrun =>
      obtain ⟨l, more, rfl, hgap⟩ := hrun.exists_cons
      have hform := hls l (by simp)
      have hhead : l.text.head? = some equals := by
        rw [List.flatMap_cons, List.append_assoc l.text] at hrest
        rw [← head?_flatMap_text hform, ← hrest]
        rfl
      rw [hform.eq_equals hhead] at hgap
      cases hgap
    | replaced _ _ hu =>
      rw [← (List.cons.inj hrest).1, hblank.2] at hu
      cases hu

/-- What follows a lexeme of the code fits it, also with other blanks. -/
theorem Respaced.fits {l : Lexeme} (h : Respaced ls t) (hls : ∀ l ∈ ls, l.Formed)
    (hl : l.isGap = false) (hfits : l.Fits (ls.flatMap Lexeme.text)) : l.Fits t := by
  cases l with
  | word w =>
    intro u hu
    rcases h.head? hls with hhead | ⟨v, hv, hblank⟩
    · exact hfits u (hhead ▸ hu)
    · obtain rfl := Option.some.inj (hu.symm.trans hv)
      exact RequireSite.isWordUnit_eq_false_of_isBlank hblank
  | symbol u =>
    refine ⟨?_, fun level hopens => ?_⟩
    · rintro ⟨hu, hdash⟩
      rcases h.head? hls with hhead | ⟨v, hv, hblank⟩
      · exact hfits.1 ⟨hu, hhead.symm.trans hdash⟩
      · obtain rfl := Option.some.inj (hdash.symm.trans hv)
        exact absurd hblank (by decide)
    · rw [Lexeme.opening, List.cons_append, List.cons_prefix_cons] at hopens
      refine hfits.2 level ?_
      rw [Lexeme.opening, List.cons_append, List.cons_prefix_cons]
      exact ⟨hopens.1, h.prefix_opening hls hopens.2⟩
  | blank u => cases hl
  | comment c => cases hl
  | _ => exact trivial

end Start

namespace Token

/-- Blanks and comments in a row, at least one. -/
structure IsSpace (gap : List Token) : Prop where
  ne_nil : gap ≠ []
  isGap : IsGap gap
  formed : ∀ x ∈ gap, x.lexeme.Formed

/-- Tokens of the same code, with blanks and comments at the same places. -/
inductive SameCode : List Token → List Token → Prop
  | nil : SameCode [] []
  | code {l : Lexeme} {p p' : Position} {ts ts' : List Token} (hl : l.isGap = false)
    (hform : l.Formed) (h : SameCode ts ts') : SameCode (⟨l, p⟩ :: ts) (⟨l, p'⟩ :: ts')
  | gap {gap gap' ts ts' : List Token} (hgap : IsSpace gap) (hgap' : IsSpace gap')
    (h : SameCode ts ts') : SameCode (gap ++ ts) (gap' ++ ts')

theorem isSpace_place {ls : List Lexeme} (hne : ls ≠ [])
    (hls : ∀ l ∈ ls, l.isGap = true ∧ l.Formed) (p : Position) : IsSpace (place p ls) where
  ne_nil hnil := hne (by rw [← map_lexeme_place p ls, hnil]; rfl)
  isGap x hx := (hls _ (mem_lexemes_of_mem_place hx)).1
  formed x hx := (hls _ (mem_lexemes_of_mem_place hx)).2

end Token

open Token (SameCode place)

/-- Blanks and comments that stay are read as before. A comment without its end has nothing after
it. -/
theorem Respaced.lexemes_kept {run ls : List Lexeme} {t : Text} (h : Respaced ls t)
    (hls : lexemes ((run ++ ls).flatMap Lexeme.text) = run ++ ls)
    (hform : ∀ l ∈ run ++ ls, l.Formed) (hrun : ∀ l ∈ run, l.isGap = true) :
    lexemes (run.flatMap Lexeme.text ++ t) = run ++ lexemes t := by
  induction run with
  | nil => rfl
  | cons c run ih =>
    obtain ⟨hc, hrun⟩ := List.forall_mem_cons.mp hrun
    obtain ⟨hcform, hrest⟩ := List.forall_mem_cons.mp hform
    have hfits := (@formed_of_lexemes _ [] _ _ hls hcform.isOpen).2
    have hnext : c.Fits (run.flatMap Lexeme.text ++ t) := by
      -- Only a comment minds what follows: without its end, nothing may.
      cases c with
      | comment s =>
        refine hfits.imp id fun hnil => ?_
        have hnone : run ++ ls = [] := by
          refine List.eq_nil_iff_forall_not_mem.mpr fun l hl => ?_
          exact (hrest l hl).text_ne_nil (List.flatMap_eq_nil_iff.mp hnil l hl)
        obtain ⟨rfl, rfl⟩ := List.append_eq_nil_iff.mp hnone
        exact h.eq_nil rfl
      | blank u => exact trivial
      | _ => cases hc
    rw [List.flatMap_cons, List.append_assoc, lexemes_formed hcform hnext,
      ih (@lexemes_suffix _ [c] _ hls) hrest hrun]
    rfl

/-- The tokens of a text with other blanks and comments. -/
theorem Respaced.sameCode {ls : List Lexeme} {t : Text} (h : Respaced ls t)
    (hls : lexemes (ls.flatMap Lexeme.text) = ls) (hform : ∀ l ∈ ls, l.Formed) (p p' : Position) :
    SameCode (place p ls) (place p' (lexemes t)) := by
  induction h generalizing p p' with
  | nil =>
    rw [lexemes]
    exact .nil
  | @code l ls t hl h ih =>
    obtain ⟨hlform, hform⟩ := List.forall_mem_cons.mp hform
    have hfits := (@formed_of_lexemes _ [] _ _ hls hlform.isOpen).2
    rw [lexemes_formed hlform (h.fits hform hl hfits)]
    exact .code hl hlform (ih (@lexemes_suffix _ [l] _ hls) hform _ _)
  | @kept run ls t hrun _ h ih =>
    have hrest := fun l hl => hform l (List.mem_append_right run hl)
    rw [h.lexemes_kept hls hform hrun.2, Token.place_append, Token.place_append]
    have hspace : ∀ p, Token.IsSpace (place p run) := Token.isSpace_place hrun.1
      fun l hl => ⟨hrun.2 l hl, hform l (List.mem_append_left ls hl)⟩
    exact .gap (hspace p) (hspace p') (ih (lexemes_suffix hls) hrest _ _)
  | @replaced run ls u gap t hrun _ hu hgap _ ih =>
    have hrest := fun l hl => hform l (List.mem_append_right run hl)
    obtain ⟨others, hothers, hread⟩ := (Spacing.blank hu hgap).lexemes_append
    have hne : others ≠ [] := by
      rintro rfl
      have htext := lexemes_text (u :: gap)
      rw [← List.append_nil (u :: gap), hread, lexemes] at htext
      cases htext
    rw [hread, Token.place_append, Token.place_append]
    exact .gap (Token.isSpace_place hrun.1
        (fun l hl => ⟨hrun.2 l hl, hform l (List.mem_append_left ls hl)⟩) p)
      (Token.isSpace_place hne hothers p') (ih (lexemes_suffix hls) hrest _ _)

namespace RequireSite

theorem formed_of_closed {t : Text} (h : ∀ l ∈ lexemes t, l.isOpen = false) :
    ∀ l ∈ lexemes t, l.Formed := by
  intro l hl
  obtain ⟨front, back, hsplit⟩ := List.append_of_mem hl
  exact (formed_of_lexemes hsplit (h l hl)).1

/-- A first line for the operating system stays. -/
theorem program_respaced {t s : Text} (h : Respaced (lexemes (program t)) s)
    (hform : ∀ l ∈ lexemes (program t), l.Formed) : program (prologue t ++ s) = s := by
  by_cases hhash : t.head? = some hash
  · have hprologue : prologue t = firstLine t ++ (t.dropWhile (· != lineFeed)).take 1 :=
      if_pos hhash
    have hprogram : program t = afterFirstLine t := if_pos hhash
    rcases eq_firstLine_or t with ⟨hdrop, hline⟩ | ⟨rest, hdrop, hline⟩
    · rw [afterFirstLine, hdrop] at hprogram
      obtain rfl := h.eq_nil (by rw [hprogram, List.tail_nil, lexemes])
      rw [hprologue, hdrop, List.take_nil, List.append_nil, List.append_nil, ← hline, hprogram,
        List.tail_nil]
    · have htext : prologue t ++ s = firstLine t ++ lineFeed :: s := by
        rw [hprologue, hdrop, List.append_assoc]
        rfl
      have hhead : (firstLine t ++ lineFeed :: s).head? = some hash := by
        rw [hline] at hhash
        cases hfirst : firstLine t with
        | nil =>
          rw [hfirst] at hhash
          exact absurd hhash (by decide : some lineFeed ≠ some hash)
        | cons u more =>
          rw [hfirst] at hhash
          exact hhash
      have hafter := (Lexeme.takeWhile_line (lineFeed_notMem_firstLine t) s).2
      rw [htext, program, if_pos hhead, afterFirstLine, hafter, List.tail_cons]
  · have hprologue : prologue t = [] := if_neg hhash
    have hprogram : program t = t := if_neg hhash
    have hhead : s.head? ≠ some hash := by
      rcases h.head? hform with hhead | ⟨u, hu, hblank⟩
      · rwa [hhead, lexemes_text, hprogram]
      · intro hs
        obtain rfl := Option.some.inj (hu.symm.trans hs)
        exact absurd hblank (by decide)
    rw [hprologue, List.nil_append]
    exact if_neg hhead

theorem sameCode_tokens {t t' : Text} (h : RespacedSource t t')
    (hclosed : ∀ l ∈ lexemes (program t), l.isOpen = false) :
    SameCode (tokens t) (tokens t') := by
  obtain ⟨s, hs, rfl⟩ := h
  have hform := formed_of_closed hclosed
  rw [tokens_eq, tokens_eq, program_respaced hs hform]
  exact hs.sameCode (by rw [lexemes_text]) hform _ _

end RequireSite

end LuaBundle
