import LuaBundle.Proofs.Source.LineEnd

/-! What each lexeme is made of, and what may follow it. A lexeme that is not left open has the form
of its kind, and text of that form is read as the lexeme unless what follows goes on with it. -/

namespace LuaBundle

open Text

namespace Text

/-- A text that is up to the first occurrence of a needle. -/
def EndsFirst (needle body : Text) : Prop :=
  ∀ front back, body ++ needle = front ++ needle ++ back → back = []

theorem EndsFirst.tail {needle body : Text} {u : UInt16} (h : EndsFirst needle (u :: body)) :
    EndsFirst needle body := fun front back he => h (u :: front) back (by simp [he])

/-- A run of units, up to one that is none of them. -/
theorem takeWhile_run {p : UInt16 → Bool} {run rest : Text} (hrun : ∀ u ∈ run, p u = true)
    (hnext : ∀ u ∈ rest.head?, p u = false) :
    (run ++ rest).takeWhile p = run ∧ (run ++ rest).dropWhile p = rest := by
  have hstop : rest.takeWhile p = [] ∧ rest.dropWhile p = rest := by
    cases rest with
    | nil => exact ⟨rfl, rfl⟩
    | cons u rest => simp [hnext u rfl]
  rw [List.takeWhile_append_of_pos hrun, List.dropWhile_append_of_pos hrun, hstop.1, hstop.2,
    List.append_nil]
  exact ⟨rfl, rfl⟩

theorem lineFeed_notMem_firstLine (t : Text) : lineFeed ∉ firstLine t := by
  intro hmem
  have := List.all_eq_true.mp List.all_takeWhile _ hmem
  simp at this

/-- A text has one line, or a line feed ends its first. -/
theorem eq_firstLine_or (t : Text) :
    t.dropWhile (· != lineFeed) = [] ∧ t = firstLine t ∨
      ∃ rest, t.dropWhile (· != lineFeed) = lineFeed :: rest ∧
        t = firstLine t ++ lineFeed :: rest := by
  have hsplit := List.takeWhile_append_dropWhile (p := (· != lineFeed)) (l := t)
  cases hdrop : t.dropWhile (· != lineFeed) with
  | nil =>
    rw [hdrop, List.append_nil] at hsplit
    exact .inl ⟨rfl, hsplit.symm⟩
  | cons u rest =>
    have hu : u = lineFeed := by
      have := List.head?_dropWhile_not (· != lineFeed) t
      rw [hdrop] at this
      simpa using this
    subst hu
    rw [hdrop] at hsplit
    exact .inr ⟨rest, rfl, hsplit.symm⟩

theorem endsFirst_of_cut? {needle t before after : Text} (hneedle : needle ≠ [])
    (h : cut? needle t = some (before, after)) : EndsFirst needle before := by
  induction t generalizing before after with
  | nil =>
    rw [cut?, if_neg (by simpa using hneedle)] at h
    cases h
  | cons u t ih =>
    intro front back he
    have htext := cut?_eq_some h
    rw [cut?] at h
    split at h
    · obtain ⟨rfl, _⟩ := Prod.mk.inj (Option.some.inj h)
      have := congrArg List.length he
      simp only [List.length_append, List.length_nil] at this
      exact List.length_eq_zero_iff.mp (by omega)
    · rename_i hfound
      obtain ⟨⟨b, a⟩, hrest, hb⟩ := Option.map_eq_some_iff.mp h
      obtain ⟨rfl, rfl⟩ := Prod.mk.inj hb
      cases front with
      | nil =>
        -- The needle would stand at the start, where it was not found.
        refine absurd (List.isPrefixOf_iff_prefix.mpr ⟨back ++ a, ?_⟩) hfound
        rw [← htext, he]
        simp
      | cons v front => exact ih hrest front back (List.cons.inj he).2

theorem cut?_of_endsFirst {needle before : Text} (hneedle : needle ≠ [])
    (h : EndsFirst needle before) (after : Text) :
    cut? needle (before ++ needle ++ after) = some (before, after) := by
  induction before with
  | nil =>
    obtain ⟨u, rest, rfl⟩ := List.exists_cons_of_ne_nil hneedle
    have hfound : (u :: rest).isPrefixOf (u :: (rest ++ after)) = true :=
      List.isPrefixOf_iff_prefix.mpr ⟨after, rfl⟩
    rw [List.nil_append, List.cons_append, cut?, if_pos hfound, ← List.cons_append,
      List.drop_left]
  | cons u before ih =>
    have hfound : ¬needle.isPrefixOf (u :: (before ++ needle ++ after)) = true := by
      rw [List.isPrefixOf_iff_prefix]
      intro hprefix
      have hwithin : needle <+: u :: before ++ needle := by
        refine List.prefix_of_prefix_length_le hprefix ⟨after, by simp⟩ ?_
        simp only [List.length_append, List.length_cons]
        omega
      obtain ⟨back, hback⟩ := hwithin
      have hnil := h [] back hback.symm
      have := congrArg List.length hback
      rw [hnil] at this
      simp only [List.length_append, List.length_cons, List.length_nil] at this
      omega
    rw [List.cons_append, List.cons_append, cut?, if_neg hfound, ih h.tail]
    rfl

end Text

namespace Lexeme

theorem openingLevel?_opening (level : Nat) (rest : Text) :
    openingLevel? (opening level ++ rest) = some (level, rest) := by
  have htext : opening level ++ rest =
      leftBracket :: (List.replicate level equals ++ leftBracket :: rest) := by simp [opening]
  have hequals : ∀ u ∈ List.replicate level equals, (u == equals) = true := by
    simp [List.mem_replicate]
  have hstop : ∀ u ∈ (leftBracket :: rest).head?, (u == equals) = false := by
    simp only [List.head?_cons, Option.mem_some_iff]
    rintro u rfl
    decide
  obtain ⟨htake, hdrop⟩ := takeWhile_run hequals hstop
  rw [htext, openingLevel?, if_pos rfl, htake, hdrop]
  simp

/-- A text that no long bracket opens. -/
def OpensNone (t : Text) : Prop := ∀ level, ¬opening level <+: t

theorem openingLevel?_eq_none_iff {t : Text} : openingLevel? t = none ↔ OpensNone t := by
  constructor
  · rintro h level ⟨rest, rfl⟩
    rw [openingLevel?_opening] at h
    cases h
  · intro h
    cases hlevel : openingLevel? t with
    | none => rfl
    | some found => exact absurd ⟨found.2, openingLevel?_eq_some hlevel⟩ (h found.1)

theorem closing_ne_nil (level : Nat) : closing level ≠ [] := by simp [closing]

/-- The text between the quotes of a string: units that stand for themselves, and backslashes, each
with the unit after it, with all the blanks after a `z`, or with a line break. -/
inductive QuotedBody (quote : UInt16) : Text → Prop
  | nil : QuotedBody quote []
  | plain {u : UInt16} {t : Text} (hquote : u ≠ quote) (hfeed : u ≠ lineFeed)
    (hslash : u ≠ backslash) (h : QuotedBody quote t) : QuotedBody quote (u :: t)
  | escape {u : UInt16} {t : Text} (hz : u ≠ unit 'z') (hbreak : Escape.isBreak u = false)
    (h : QuotedBody quote t) : QuotedBody quote (backslash :: u :: t)
  | blanks {run t : Text} (hrun : ∀ u ∈ run, isBlank u = true)
    (hnext : ∀ u ∈ t.head?, isBlank u = false) (h : QuotedBody quote t) :
    QuotedBody quote (backslash :: unit 'z' :: (run ++ t))
  | lineBreak {u : UInt16} {t : Text} (hu : Escape.isBreak u = true)
    (hnext : ∀ v ∈ t.head?, Escape.isBreak v = true → v = u) (h : QuotedBody quote t) :
    QuotedBody quote (backslash :: u :: t)
  | lineBreaks {u v : UInt16} {t : Text} (hu : Escape.isBreak u = true)
    (hv : Escape.isBreak v = true) (hne : v ≠ u) (h : QuotedBody quote t) :
    QuotedBody quote (backslash :: u :: v :: t)

section Quoted

variable {q : UInt16} {t body after : Text}

theorem skip_z {u : UInt16} (hu : u = unit 'z') (t : Text) :
    Escape.skip (u :: t) = (u :: t.takeWhile isBlank, t.dropWhile isBlank) :=
  if_pos hu

theorem skip_break {u : UInt16} (hu : Escape.isBreak u = true) (v : UInt16) (t : Text) :
    Escape.skip (u :: v :: t) =
      if Escape.isBreak v && v != u then ([u, v], t) else ([u], v :: t) := by
  have hz : u ≠ unit 'z' := by
    rintro rfl
    exact absurd hu (by decide)
  exact (if_neg hz).trans (if_pos hu)

theorem skip_unit {u : UInt16} (hz : u ≠ unit 'z') (hbreak : Escape.isBreak u = false) (t : Text) :
    Escape.skip (u :: t) = ([u], t) :=
  (if_neg hz).trans (if_neg (by simp [hbreak]))

theorem quotedBody_of_skip {rest : Text}
    (hbody : quotedBody? q (Escape.skip rest).2 = some (body, after)) (h : QuotedBody q body) :
    QuotedBody q (backslash :: (Escape.skip rest).1 ++ body) := by
  have htext := quotedBody?_eq_some hbody
  cases rest with
  | nil =>
    rw [Escape.skip, quotedBody?] at hbody
    cases hbody
  | cons u rest =>
    by_cases hz : u = unit 'z'
    · rw [skip_z hz] at htext ⊢
      subst hz
      refine .blanks (fun v hv => List.all_eq_true.mp List.all_takeWhile v hv) ?_ h
      intro v hv
      obtain ⟨more, rfl⟩ := List.head?_eq_some_iff.mp hv
      have hhead := List.head?_dropWhile_not isBlank rest
      rw [show rest.dropWhile isBlank = v :: (more ++ q :: after) from htext.symm] at hhead
      exact Bool.eq_false_iff.mpr (by simpa using hhead)
    by_cases hbreak : Escape.isBreak u = true
    · cases rest with
      | nil =>
        rw [Escape.skip, if_neg hz, if_pos hbreak, quotedBody?] at hbody
        cases hbody
      | cons v rest =>
        rw [skip_break hbreak] at htext ⊢
        split
        · rename_i hv
          simp only [Bool.and_eq_true, bne_iff_ne] at hv
          exact .lineBreaks hbreak hv.1 hv.2 h
        · rename_i hv
          rw [if_neg hv] at htext
          refine .lineBreak hbreak (fun w hw hwbreak => ?_) h
          obtain ⟨more, rfl⟩ := List.head?_eq_some_iff.mp hw
          obtain ⟨rfl, _⟩ := List.cons.inj htext
          simpa [hwbreak] using hv
    · rw [Bool.not_eq_true] at hbreak
      rw [skip_unit hz hbreak]
      exact .escape hz hbreak h

theorem quotedBody_of_quotedBody? (h : quotedBody? q t = some (body, after)) :
    QuotedBody q body := by
  fun_induction quotedBody? q t generalizing body after with
  | case1 => cases h
  | case2 =>
    obtain ⟨rfl, rfl⟩ := Prod.mk.inj (Option.some.inj h)
    exact .nil
  | case3 => cases h
  | case4 rest b a hb hq hfeed ih =>
    obtain ⟨rfl, rfl⟩ := Prod.mk.inj (Option.some.inj h)
    exact quotedBody_of_skip hb (ih hb)
  | case5 => cases h
  | case6 u rest hq hfeed hslash b a hb ih =>
    obtain ⟨rfl, rfl⟩ := Prod.mk.inj (Option.some.inj h)
    exact .plain hq hfeed hslash (ih hb)
  | case7 => cases h

theorem quotedBody?_skip (hq : q ≠ backslash) {rest taken left : Text}
    (hskip : Escape.skip rest = (taken, left)) (h : quotedBody? q left = some (body, after)) :
    quotedBody? q (backslash :: rest) = some (backslash :: taken ++ body, after) := by
  rw [quotedBody?, if_neg hq.symm, if_neg (by decide), if_pos rfl, hskip, h]

/-- The closing quote is found where it stands, whatever follows it. -/
theorem QuotedBody.quotedBody? (hq : q = doubleQuote ∨ q = singleQuote) (h : QuotedBody q body)
    (rest : Text) : Lexeme.quotedBody? q (body ++ q :: rest) = some (body, rest) := by
  have hslash : q ≠ backslash := by rcases hq with rfl | rfl <;> decide
  have hblank : isBlank q = false := by rcases hq with rfl | rfl <;> decide
  have hbreak : Escape.isBreak q = false := by rcases hq with rfl | rfl <;> decide
  induction h with
  | nil => rw [List.nil_append, Lexeme.quotedBody?, if_pos rfl]
  | plain hquote hfeed hback _ ih =>
    rw [List.cons_append, Quoted.quotedBody?_cons hquote hfeed hback, ih]
    rfl
  | escape hz hu _ ih => exact quotedBody?_skip hslash (skip_unit hz hu _) ih
  | @blanks run t hrun hnext _ ih =>
    have hstop : ∀ u ∈ (t ++ q :: rest).head?, isBlank u = false := by
      cases t with
      | nil => simp [hblank]
      | cons v t => simpa using hnext
    obtain ⟨htake, hdrop⟩ := takeWhile_run hrun hstop
    have hskip : Escape.skip (unit 'z' :: (run ++ t ++ q :: rest)) =
        (unit 'z' :: run, t ++ q :: rest) := by
      rw [List.append_assoc, skip_z rfl, htake, hdrop]
    exact quotedBody?_skip hslash hskip ih
  | @lineBreak u t hu hnext _ ih =>
    obtain ⟨v, more, hv⟩ : ∃ v more, t ++ q :: rest = v :: more :=
      List.exists_cons_of_ne_nil (by simp)
    have hother : ¬(Escape.isBreak v && v != u) = true := by
      cases t with
      | nil =>
        obtain ⟨rfl, _⟩ := List.cons.inj hv
        simp [hbreak]
      | cons w t =>
        obtain ⟨rfl, _⟩ := List.cons.inj hv
        simpa using hnext w rfl
    have hskip : Escape.skip (u :: (t ++ q :: rest)) = ([u], t ++ q :: rest) := by
      rw [hv, skip_break hu, if_neg hother]
    exact quotedBody?_skip hslash hskip ih
  | @lineBreaks u v t hu hv hne _ ih =>
    have hboth : (Escape.isBreak v && v != u) = true := by simp [hv, hne]
    exact quotedBody?_skip hslash ((skip_break hu v _).trans (if_pos hboth)) ih

end Quoted

/-- The text of a comment on one line, after its two dashes. -/
def IsLine (t : Text) : Prop := lineFeed ∉ t ∧ OpensNone t

/-- A comment with its end: a long bracket that closes, or a line with its line feed. -/
inductive IsComment : Text → Prop
  | block {level : Nat} {body : Text} (h : EndsFirst (closing level) body) :
    IsComment (dash :: dash :: opening level ++ body ++ closing level)
  | line {body : Text} (h : IsLine body) : IsComment (dash :: dash :: body ++ [lineFeed])

/-- Blanks and comments with their ends. -/
inductive Spacing : Text → Prop
  | nil : Spacing []
  | blank {u : UInt16} {t : Text} (hu : isBlank u = true) (h : Spacing t) : Spacing (u :: t)
  | comment {c t : Text} (hc : IsComment c) (h : Spacing t) : Spacing (c ++ t)

/-- The form of a lexeme that is not left open. A comment on the last line may end without a line
feed. -/
def Formed : Lexeme → Prop
  | blank u => isBlank u = true
  | comment c => IsComment c ∨ ∃ body, c = dash :: dash :: body ∧ IsLine body
  | word w => w ≠ [] ∧ ∀ u ∈ w, isWordUnit u = true
  | quoted q body => (q = doubleQuote ∨ q = singleQuote) ∧ QuotedBody q body
  | bracketed level body => EndsFirst (closing level) body
  | symbol u => isBlank u = false ∧ isWordUnit u = false ∧ ¬(u = doubleQuote ∨ u = singleQuote)
  | openComment _ | openString _ => False

/-- Whether a text that follows a lexeme does not go on with it. -/
def Fits : Lexeme → Text → Prop
  | comment c, t => IsComment c ∨ t = []
  | word _, t => ∀ u ∈ t.head?, isWordUnit u = false
  | symbol u, t => ¬(u = dash ∧ t.head? = some dash) ∧ OpensNone (u :: t)
  | _, _ => True

theorem takeWhile_line {body : Text} (h : lineFeed ∉ body) (rest : Text) :
    (body ++ lineFeed :: rest).takeWhile (· != lineFeed) = body ∧
      (body ++ lineFeed :: rest).dropWhile (· != lineFeed) = lineFeed :: rest :=
  takeWhile_run (fun _ hu => bne_iff_ne.mpr fun he => h (he ▸ hu)) (by simp)

theorem formed_readComment {t : Text} (h : (readComment t).1.isOpen = false) :
    (readComment t).1.Formed ∧ (readComment t).1.Fits (readComment t).2 := by
  cases hlevel : openingLevel? t with
  | some found =>
    obtain ⟨level, rest⟩ := found
    cases hcut : cut? (closing level) rest with
    | none =>
      rw [readComment_open hlevel hcut] at h
      cases h
    | some found =>
      have hblock := IsComment.block (endsFirst_of_cut? (closing_ne_nil level) hcut)
      rw [readComment_closed hlevel hcut]
      exact ⟨.inl hblock, .inl hblock⟩
  | none =>
    have hnone := openingLevel?_eq_none_iff.mp hlevel
    have hline : IsLine (firstLine t) := ⟨lineFeed_notMem_firstLine t,
      fun level hopening => hnone level (hopening.trans (List.takeWhile_prefix _))⟩
    rw [readComment_line hlevel]
    rcases eq_firstLine_or t with ⟨hdrop, _⟩ | ⟨rest, hdrop, _⟩
    · rw [hdrop]
      exact ⟨.inr ⟨firstLine t, by simp [firstLine], hline⟩, .inr rfl⟩
    · rw [hdrop]
      exact ⟨.inl (.line hline), .inl (.line hline)⟩

/-- What is read has the form of its kind, and what is left does not go on with it. -/
theorem formed_read {u : UInt16} {rest : Text} (h : (read u rest).1.isOpen = false) :
    (read u rest).1.Formed ∧ (read u rest).1.Fits (read u rest).2 := by
  by_cases hblank : isBlank u = true
  · rw [show read u rest = (blank u, rest) from if_pos hblank]
    exact ⟨hblank, trivial⟩
  by_cases hword : isWordUnit u = true
  · rw [read_word hword]
    refine ⟨⟨List.cons_ne_nil _ _, List.forall_mem_cons.mpr ⟨hword, fun v hv => ?_⟩⟩, ?_⟩
    · exact List.all_eq_true.mp List.all_takeWhile v hv
    · intro v hv
      have hhead := List.head?_dropWhile_not isWordUnit rest
      rw [Option.mem_def.mp hv] at hhead
      simpa using hhead
  by_cases hquote : u = doubleQuote ∨ u = singleQuote
  · rw [read_quote hblank hword hquote] at h ⊢
    cases hbody : quotedBody? u rest with
    | none =>
      rw [hbody] at h
      cases h
    | some found => exact ⟨⟨hquote, quotedBody_of_quotedBody? hbody⟩, trivial⟩
  by_cases hcomment : u = dash ∧ rest.head? = some dash
  · obtain ⟨rfl, hhead⟩ := hcomment
    obtain ⟨t, rfl⟩ := List.head?_eq_some_iff.mp hhead
    exact formed_readComment h
  rw [read_bracket hblank hword hquote _ hcomment] at h ⊢
  cases hlevel : openingLevel? (u :: rest) with
  | none =>
    exact ⟨⟨Bool.eq_false_iff.mpr hblank, Bool.eq_false_iff.mpr hword, hquote⟩, hcomment,
      openingLevel?_eq_none_iff.mp hlevel⟩
  | some found =>
    obtain ⟨level, inner⟩ := found
    rw [hlevel] at h
    cases hcut : cut? (closing level) inner with
    | none =>
      simp only [hcut] at h
      cases h
    | some found =>
      simp only [hcut]
      exact ⟨(endsFirst_of_cut? (closing_ne_nil level) hcut), trivial⟩

end Lexeme

open Lexeme

theorem lexemes_dashes (t : Text) :
    lexemes (dash :: dash :: t) = (readComment t).1 :: lexemes (readComment t).2 := by
  rw [lexemes]
  rfl

theorem lexemes_comment {c : Text} (h : IsComment c) (rest : Text) :
    lexemes (c ++ rest) = .comment c :: lexemes rest := by
  cases h with
  | @block level body hfirst =>
    have htext : dash :: dash :: opening level ++ body ++ closing level ++ rest =
        dash :: dash :: (opening level ++ (body ++ closing level ++ rest)) := by simp
    rw [htext, lexemes_dashes, readComment_closed (openingLevel?_opening level _)
      (cut?_of_endsFirst (closing_ne_nil level) hfirst rest)]
  | @line body hline =>
    have htext : dash :: dash :: body ++ [lineFeed] ++ rest =
        dash :: dash :: (body ++ lineFeed :: rest) := by simp
    have hnone : openingLevel? (body ++ lineFeed :: rest) = none := by
      rw [openingLevel?_append, openingLevel?_eq_none_iff.mpr hline.2]
      rfl
    obtain ⟨htake, hdrop⟩ := takeWhile_line hline.1 rest
    rw [htext, lexemes_dashes, readComment_line hnone, htake, hdrop]
    rfl

/-- The comment on a last line without a line feed. -/
theorem lexemes_lastLine {body : Text} (h : IsLine body) :
    lexemes (dash :: dash :: body) = [.comment (dash :: dash :: body)] := by
  have hall : ∀ u ∈ body, (u != lineFeed) = true := fun u hu =>
    bne_iff_ne.mpr fun he => h.1 (he ▸ hu)
  rw [lexemes_dashes, readComment_line (openingLevel?_eq_none_iff.mpr h.2),
    List.takeWhile_eq_self_iff.mpr hall, List.dropWhile_eq_nil_iff.mpr hall]
  simp [lexemes]

theorem lexemes_quoted {q : UInt16} {body : Text} (hq : q = doubleQuote ∨ q = singleQuote)
    (hbody : QuotedBody q body) (rest : Text) :
    lexemes (q :: (body ++ q :: rest)) = .quoted q body :: lexemes rest := by
  have hblank : ¬isBlank q = true := by rcases hq with rfl | rfl <;> decide
  have hword : ¬isWordUnit q = true := by rcases hq with rfl | rfl <;> decide
  rw [lexemes, read_quote hblank hword hq, hbody.quotedBody? hq]

theorem lexemes_bracketed {level : Nat} {body : Text} (h : EndsFirst (closing level) body)
    (rest : Text) : lexemes (opening level ++ (body ++ closing level ++ rest)) =
      .bracketed level body :: lexemes rest := by
  have hopening := openingLevel?_opening level (body ++ closing level ++ rest)
  have hcut := cut?_of_endsFirst (closing_ne_nil level) h rest
  obtain ⟨more, hmore⟩ : ∃ more, opening level ++ (body ++ closing level ++ rest) =
      leftBracket :: more := ⟨_, rfl⟩
  rw [hmore] at hopening
  rw [hmore, lexemes, read_bracket (by decide) (by decide) (by decide) more
    (fun hdash => absurd hdash.1 (by decide)), hopening]
  simp only [hcut]

/-- Text of the right form is read as the lexeme, where what follows does not go on with it. -/
theorem lexemes_formed {l : Lexeme} {rest : Text} (h : l.Formed) (hfits : l.Fits rest) :
    lexemes (l.text ++ rest) = l :: lexemes rest := by
  cases l with
  | blank u =>
    have hread : Lexeme.read u rest = (blank u, rest) := if_pos h
    change lexemes (u :: rest) = _
    rw [lexemes, hread]
  | comment c =>
    rcases h with h | ⟨body, rfl, hline⟩
    · exact lexemes_comment h rest
    · rcases hfits with h | rfl
      · exact lexemes_comment h rest
      · rw [text, List.append_nil, lexemes_lastLine hline, lexemes]
  | word w =>
    refine lexemes_word h.1 h.2 ?_
    cases rest with
    | nil => rfl
    | cons u rest => exact hfits u rfl
  | quoted q body =>
    have htext : (quoted q body).text ++ rest = q :: (body ++ q :: rest) := by simp [text]
    rw [htext, lexemes_quoted h.1 h.2]
  | bracketed level body =>
    have htext : (bracketed level body).text ++ rest =
        opening level ++ (body ++ closing level ++ rest) := by simp [text]
    rw [htext, lexemes_bracketed h]
  | symbol u =>
    change lexemes (u :: rest) = _
    rw [lexemes, read_symbol h.1 h.2.1 h.2.2 hfits.1 (openingLevel?_eq_none_iff.mpr hfits.2)]
  | openComment t => exact h.elim
  | openString t => exact h.elim

/-- What is left of the lexemes of a text are the lexemes of what is left. -/
theorem lexemes_suffix {t : Text} {front back : List Lexeme} (h : lexemes t = front ++ back) :
    lexemes (back.flatMap text) = back := by
  induction front generalizing t with
  | nil => rw [← h.trans (List.nil_append back), lexemes_text]
  | cons l front ih =>
    cases t with
    | nil =>
      rw [lexemes] at h
      cases h
    | cons u rest =>
      rw [lexemes] at h
      exact ih (List.cons.inj h).2

/-- A lexeme that is not left open, among those of a text. -/
theorem formed_of_lexemes {t : Text} {front back : List Lexeme} {l : Lexeme}
    (h : lexemes t = front ++ l :: back) (hopen : l.isOpen = false) :
    l.Formed ∧ l.Fits (back.flatMap text) := by
  have hsuffix := lexemes_suffix h
  obtain ⟨u, rest, htext⟩ : ∃ u rest, (l :: back).flatMap text = u :: rest := by
    refine List.exists_cons_of_ne_nil fun hnil => ?_
    rw [hnil, lexemes] at hsuffix
    cases hsuffix
  rw [htext, lexemes] at hsuffix
  obtain ⟨hl, hback⟩ := List.cons.inj hsuffix
  have hread := @formed_read u rest (by rw [hl]; exact hopen)
  rw [← lexemes_text (read u rest).2, hback, hl] at hread
  exact hread

/-- A lexeme that is left open takes the rest of the text. -/
theorem isOpen_read (u : UInt16) (rest : Text) :
    (read u rest).1.isOpen = false ∨ (read u rest).2 = [] := by
  unfold Lexeme.read readComment
  repeat' split
  all_goals first | exact .inl rfl | exact .inr rfl

theorem isOpen_of_lexemes {t : Text} {front back : List Lexeme} {l : Lexeme}
    (h : lexemes t = front ++ l :: back) (hback : back ≠ []) : l.isOpen = false := by
  have hsuffix := lexemes_suffix h
  cases htext : (l :: back).flatMap text with
  | nil =>
    rw [htext, lexemes] at hsuffix
    cases hsuffix
  | cons u rest =>
    rw [htext, lexemes] at hsuffix
    obtain ⟨hl, hrest⟩ := List.cons.inj hsuffix
    rcases isOpen_read u rest with hopen | hnil
    · rwa [hl] at hopen
    · rw [hnil, lexemes] at hrest
      exact absurd hrest.symm hback

/-- What is passed over before a lexeme has its ends. -/
theorem spacing_of_gap {t : Text} {front gap back : List Lexeme} {l : Lexeme}
    (h : lexemes t = front ++ (gap ++ l :: back)) (hgap : ∀ l ∈ gap, l.isGap = true) :
    Spacing (gap.flatMap text) := by
  induction gap generalizing front with
  | nil => exact .nil
  | cons c gap ih =>
    obtain ⟨hc, hgap⟩ := List.forall_mem_cons.mp hgap
    have hrest := @ih (front ++ [c]) (by simpa using h) hgap
    have hopen : c.isOpen = false := isOpen_of_lexemes h (by simp)
    obtain ⟨hform, hfits⟩ := formed_of_lexemes h hopen
    cases c with
    | blank u => exact .blank hform hrest
    | comment c =>
      rcases hfits with hcomment | hnil
      · exact .comment hcomment hrest
      · have hne : l.text ≠ [] := text_ne_nil_of_mem_lexemes (t := t) (by simp [h])
        rw [List.flatMap_eq_nil_iff] at hnil
        exact absurd (hnil l (by simp)) hne
    | _ => cases hc

end LuaBundle
