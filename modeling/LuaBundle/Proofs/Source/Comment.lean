import LuaBundle.Proofs.Source.Spacing

/-! Blanks and a comment at the end of a line. A scan finds the same whatever stands there after
code that it reads to its end; but only a line feed ends the comment, so that what follows a
carriage return belongs to it as well. -/

namespace LuaBundle

open Text

namespace Lexeme

/-- Only a bracket or an equality sign goes on with the opening of a long bracket. -/
theorem OpensNone.append {t : Text} (h : OpensNone t) {u : UInt16} (hbracket : u ≠ leftBracket)
    (hequals : u ≠ equals) (rest : Text) : OpensNone (t ++ u :: rest) := by
  intro level hopening
  have hu : u ∉ opening level := by simp [opening, List.mem_replicate, hbracket, hequals]
  have hmore : t ++ [u] <+: t ++ u :: rest := ⟨rest, by simp⟩
  rcases List.prefix_or_prefix_of_prefix hopening hmore with hwithin | hbeyond
  · rcases List.prefix_concat_iff.mp hwithin with he | hwithin
    · exact hu (he ▸ by simp)
    · exact h level hwithin
  · exact hu (hbeyond.subset (by simp))

theorem OpensNone.append_blank {t : Text} (h : OpensNone t) {u : UInt16} (hu : isBlank u = true)
    (rest : Text) : OpensNone (t ++ u :: rest) :=
  h.append (by rintro rfl; exact absurd hu (by decide)) (by rintro rfl; exact absurd hu (by decide))
    rest

theorem IsLine.append_blank {t : Text} (h : IsLine t) {u : UInt16} (hu : isBlank u = true)
    {rest : Text} (hrest : lineFeed ∉ u :: rest) : IsLine (t ++ u :: rest) :=
  ⟨by simpa [h.1] using hrest, h.2.append_blank hu rest⟩

/-- What a lexeme can be followed by, it can with a blank at the end, and with anything after it. -/
theorem Fits.append_blank {l : Lexeme} {t : Text} (h : l.Fits t)
    (hl : ∀ c, l = .comment c → IsComment c) {u : UInt16} (hu : isBlank u = true) (rest : Text) :
    l.Fits (t ++ u :: rest) := by
  cases l with
  | comment c => exact .inl (hl c rfl)
  | word w =>
    cases t with
    | nil =>
      rintro v ⟨⟩
      exact RequireSite.isWordUnit_eq_false_of_isBlank hu
    | cons v t => exact h
  | symbol s =>
    refine ⟨?_, h.2.append_blank hu rest⟩
    rintro ⟨hs, hdash⟩
    cases t with
    | nil =>
      obtain rfl := Option.some.inj hdash
      exact absurd hu (by decide)
    | cons v t => exact h.1 ⟨hs, hdash⟩
  | _ => exact trivial

/-- Blanks on a line, and perhaps a comment, which goes on to its end. -/
inductive Remark : Text → Prop
  | nil : Remark []
  | blank {u : UInt16} {t : Text} (hu : isBlank u = true) (hfeed : u ≠ lineFeed) (h : Remark t) :
    Remark (u :: t)
  | comment {t : Text} (h : IsLine t) : Remark (dash :: dash :: t)

theorem Remark.lineFeed_notMem {t : Text} (h : Remark t) : lineFeed ∉ t := by
  induction h with
  | nil => simp
  | blank _ hfeed _ ih => simp [hfeed.symm, ih]
  | comment h =>
    have hdash : lineFeed ≠ dash := by decide
    simp [hdash, h.1]

end Lexeme

open Lexeme

/-- The lexemes of a text stay where a blank follows it, but for a comment at its end that has no
line feed. -/
theorem lexemes_append_blank {front back : List Lexeme}
    (hls : lexemes ((front ++ back).flatMap text) = front ++ back) (hform : ∀ l ∈ front, l.Formed)
    (hcomment : ∀ c, .comment c ∈ front → IsComment c) {u : UInt16} (hu : isBlank u = true)
    (rest : Text) : lexemes ((front ++ back).flatMap text ++ u :: rest) =
      front ++ lexemes (back.flatMap text ++ u :: rest) := by
  induction front with
  | nil => rfl
  | cons l front ih =>
    obtain ⟨hl, hform⟩ := List.forall_mem_cons.mp hform
    have hfits : l.Fits ((front ++ back).flatMap text) :=
      (@formed_of_lexemes _ [] _ _ hls hl.isOpen).2
    have hends : ∀ c, l = .comment c → IsComment c := fun c hc =>
      hcomment c (hc ▸ List.mem_cons_self)
    rw [List.cons_append, List.flatMap_cons, List.append_assoc,
      lexemes_formed hl (hfits.append_blank hends hu rest), ih (@lexemes_suffix _ [l] _ hls) hform
        fun c hc => hcomment c (List.mem_cons_of_mem _ hc)]
    rfl

/-- Only the last lexeme of a text may be a comment without a line feed. -/
theorem exists_lastLine (t : Text) :
    ∃ front back, lexemes t = front ++ back ∧ (∀ c, .comment c ∈ front → IsComment c) ∧
      (back = [] ∨ ∃ body, IsLine body ∧ back = [.comment (dash :: dash :: body)]) := by
  by_cases hall : ∀ c, .comment c ∈ lexemes t → IsComment c
  · exact ⟨lexemes t, [], (List.append_nil _).symm, hall, .inl rfl⟩
  simp only [not_forall] at hall
  obtain ⟨c, hc, hnot⟩ := hall
  obtain ⟨front, after, hsplit⟩ := List.append_of_mem hc
  have hnil : ∀ {front after : List Lexeme} {c : Text}, lexemes t = front ++ .comment c :: after →
      ¬IsComment c → after = [] := by
    intro front after c hsplit hnot
    obtain ⟨_, hfits⟩ := formed_of_lexemes hsplit rfl
    refine List.eq_nil_iff_forall_not_mem.mpr fun l hl => ?_
    have hne : l.text ≠ [] := text_ne_nil_of_mem_lexemes (t := t) (by simp [hsplit, hl])
    exact hne (List.flatMap_eq_nil_iff.mp (hfits.resolve_left hnot) l hl)
  obtain rfl := hnil hsplit hnot
  refine ⟨front, _, hsplit, fun d hd => ?_, .inr ?_⟩
  · obtain ⟨before, rest, rfl⟩ := List.append_of_mem hd
    by_contra hopen
    have := hnil (hsplit.trans (List.append_assoc _ _ _)) hopen
    simp at this
  · obtain ⟨body, rfl, hbody⟩ := (formed_of_lexemes hsplit rfl).1.resolve_left hnot
    exact ⟨body, hbody, rfl⟩

/-- At the end of a line blanks and a comment are read up to the line feed. -/
theorem Lexeme.Remark.lexemes_append {t next : Text} (h : Remark t)
    (hnext : ∀ u ∈ next.head?, u = lineFeed) :
    ∃ gap, (∀ l ∈ gap, l.isGap = true ∧ l.Formed) ∧ gap.flatMap text = t ++ next.take 1 ∧
      lexemes (t ++ next) = gap ++ lexemes next.tail := by
  have hcomment : ∀ {c : Text}, Lexeme.Formed (.comment c) →
      ∀ l ∈ [Lexeme.comment c], l.isGap = true ∧ l.Formed := by
    simp [isGap]
  induction h with
  | nil =>
    cases next with
    | nil => exact ⟨[], by simp, rfl, rfl⟩
    | cons u rest =>
      obtain rfl := hnext u rfl
      have hblank : isBlank lineFeed = true := by decide
      exact ⟨[.blank lineFeed], by simp [isGap, Formed, hblank], rfl,
        RequireSite.lexemes_lineFeed rest⟩
  | @blank u t hu _ _ ih =>
    obtain ⟨gap, hgap, htext, hlexemes⟩ := ih
    refine ⟨.blank u :: gap, List.forall_mem_cons.mpr ⟨⟨rfl, hu⟩, hgap⟩, ?_, ?_⟩
    · rw [List.flatMap_cons, htext]
      rfl
    · rw [List.cons_append, RequireSite.lexemes_blank hu, hlexemes]
      rfl
  | @comment t h =>
    cases next with
    | nil =>
      refine ⟨_, hcomment (.inr ⟨t, rfl, h⟩), by simp [text], ?_⟩
      rw [List.append_nil, lexemes_lastLine h, List.tail_nil, RequireSite.lexemes_nil]
      rfl
    | cons u rest =>
      obtain rfl := hnext u rfl
      refine ⟨_, hcomment (.inl (.line h)), by simp [text], ?_⟩
      rw [List.append_cons, lexemes_comment (.line h)]
      rfl

namespace Token

variable {ts G G' B : List Token}

/-- The next token where one gap stands for another: it comes before the gap, or after it. -/
theorem significant?_across {t : Token} {rest : List Token} (hG : IsGap G) (hG' : IsGap G')
    (h : significant? (ts ++ (G ++ B)) = some (t :: rest)) :
    (∃ left, rest = left ++ (G ++ B) ∧ significant? ts = some (t :: left) ∧
      significant? (ts ++ (G' ++ B)) = some (t :: (left ++ (G' ++ B)))) ∨
    significant? (ts ++ (G' ++ B)) = some (t :: rest) := by
  rcases significant?_move_cases id ts with hall | hnone | ⟨x, left, hleft, _⟩
  · rw [significant?_append hall, significant?_append hG] at h
    rw [significant?_append hall, significant?_append hG']
    exact .inr h
  · rw [(hnone _).1] at h
    cases h
  · obtain ⟨rfl, rfl⟩ := List.cons.inj (Option.some.inj ((hleft _).symm.trans h))
    exact .inl ⟨left, rfl, by simpa using hleft [], hleft _⟩

/-- The tokens of the next line do not depend on how long this one is. -/
theorem place_next {t next : Text} (ht : lineFeed ∉ t) (hnext : ∀ u ∈ next.head?, u = lineFeed)
    (p : Position) :
    place (p.after (t ++ next.take 1)) (lexemes next.tail) =
      place (p.after (next.take 1)) (lexemes next.tail) := by
  cases next with
  | nil =>
    rw [List.tail_nil, RequireSite.lexemes_nil]
    rfl
  | cons u rest =>
    obtain rfl := hnext u rfl
    rw [List.take_succ_cons, List.take_zero, Position.after_line ht]
    rfl

end Token

namespace RequireSite

open Token (significant? source IsGap IsSpace IsTrailing)

variable {h : History} {w : Text} {p : Position} {ts us G G' B : List Token}

/-- A scan that comes to the end came to the trailing blanks before. -/
theorem reachesEnd_of_trailing (hgap : IsTrailing us) (hends : reachesEnd h (ts ++ us) = true) :
    reachesEnd h ts = true := by
  obtain ⟨_, _, hs⟩ := reachesEnd_iff.mp hends
  obtain ⟨g, hsame⟩ := hs.elsewhere id (.refl h) hgap
  have hfirst := hsame [] .nil
  rw [Token.map_move_id, List.append_nil] at hfirst
  exact reachesEnd_iff.mpr ⟨_, g, hfirst⟩

/-! A use that is read before a gap, and one that is read after it. -/

theorem use?_append {site : Option RequireSite} {after : List Token} (hts : ¬IsGap ts)
    (hu : use? h w p ts = some ⟨site, some after⟩) (hus : (source us).head? ≠ some equals) :
    use? h w p (ts ++ us) = some ⟨site, some (after ++ us)⟩ := by
  have htrailing : IsTrailing [] := ⟨by simp [IsGap], by simp [source]⟩
  rw [← List.append_nil ts] at hu
  obtain ⟨left, rfl, hsame⟩ := use?_trailing id rfl hts htrailing hu
  have hsite : site.map (moved id) = site := by cases site <;> rfl
  simpa [Token.map_move_id, hsite] using hsame us hus

theorem readCall_gap (hG : IsGap G) (p : Position) (ts : List Token) :
    readCall p (G ++ ts) = readCall p ts ∨ ∃ site,
      readCall p (G ++ ts) = ⟨site, some (G ++ ts)⟩ ∧ readCall p ts = ⟨site, some ts⟩ := by
  have hsame := Token.significant?_append hG ts
  cases hts : significant? ts with
  | none =>
    rw [readCall, readCall, hsame, hts]
    exact .inl rfl
  | some us =>
    cases us with
    | nil =>
      rw [readCall, readCall, hsame, hts]
      exact .inr ⟨_, rfl, rfl⟩
    | cons t rest =>
      obtain ⟨l, q⟩ := t
      cases l with
      | symbol u =>
        rw [readCall_symbol hts, readCall_symbol (hsame.trans hts)]
        split_ifs
        · exact .inl rfl
        · exact .inl rfl
        · exact .inr ⟨_, rfl, rfl⟩
        · exact .inr ⟨_, rfl, rfl⟩
      | openString s =>
        rw [readCall, readCall, hsame, hts]
        exact .inl rfl
      | quoted q body =>
        rw [readCall, readCall, hsame, hts]
        exact .inl rfl
      | bracketed level body =>
        rw [readCall, readCall, hsame, hts]
        exact .inl rfl
      | _ =>
        rw [readCall, readCall, hsame, hts]
        exact .inr ⟨_, rfl, rfl⟩

theorem readProtected?_across {use : Use} (hG : IsGap G) (hG' : IsGap G')
    (hnone : readProtected? ts = none) (hu : readProtected? (ts ++ (G ++ B)) = some use) :
    readProtected? (ts ++ (G' ++ B)) = some use := by
  obtain ⟨_, _, _, parens, names, commas, hparens, hnames, hcommas, rfl⟩ :=
    readProtected?_eq_some hu
  rcases Token.significant?_across hG hG' hparens with ⟨_, rfl, hparens₀, hparens⟩ | hparens
  · rcases Token.significant?_across hG hG' hnames with ⟨_, rfl, hnames₀, hnames⟩ | hnames
    · rcases Token.significant?_across hG hG' hcommas with ⟨_, rfl, hcommas₀, _⟩ | hcommas
      · -- The comma stands before the gap, so that the call was found there.
        rw [readProtected?_eq hparens₀ hnames₀ hcommas₀] at hnone
        cases hnone
      · exact readProtected?_eq hparens hnames hcommas
    · exact readProtected?_eq hparens hnames hcommas
  · exact readProtected?_eq hparens hnames hcommas

theorem use?_across (hG : IsGap G) (hG' : IsGap G') (hu : use? h w p ts = none) :
    use? h w p (ts ++ (G ++ B)) = use? h w p (ts ++ (G' ++ B)) := by
  rw [use?] at hu
  rw [use?, use?]
  split_ifs at hu ⊢
  · exact Option.ext fun use =>
      ⟨readProtected?_across hG hG' hu, readProtected?_across hG' hG hu⟩
  · rfl

/-! The scan over either gap. -/

theorem scanTokens_word_congr {ts ts' : List Token} (hu : use? h w p ts = use? h w p ts')
    (hrest : scanTokens (h.push (.word w)) ts = scanTokens (h.push (.word w)) ts') :
    scanTokens h (⟨.word w, p⟩ :: ts) = scanTokens h (⟨.word w, p⟩ :: ts') := by
  cases huse : use? h w p ts with
  | none => rw [scanTokens_word huse, scanTokens_word (hu ▸ huse), hrest]
  | some use =>
    obtain ⟨site, rest⟩ := use
    cases rest with
    | none => rw [scanTokens_stop huse, scanTokens_stop (hu ▸ huse)]
    | some after => rw [scanTokens_use huse, scanTokens_use (hu ▸ huse)]

/-- Blanks and comments between a word and what follows do not matter. -/
theorem scanTokens_word_gap (hG : IsGap G) (h : History) (w : Text) (p : Position)
    (ts : List Token) :
    scanTokens h (⟨.word w, p⟩ :: (G ++ ts)) = scanTokens h (⟨.word w, p⟩ :: ts) := by
  have huse : use? h w p (G ++ ts) = use? h w p ts ∨ ∃ site,
      use? h w p (G ++ ts) = some ⟨site, some (G ++ ts)⟩ ∧
        use? h w p ts = some ⟨site, some ts⟩ := by
    rw [use?, use?]
    split_ifs
    · rcases readCall_gap hG p ts with hsame | ⟨site, hgap, hsame⟩
      · exact .inl (congrArg some hsame)
      · exact .inr ⟨site, congrArg some hgap, congrArg some hsame⟩
    · rw [readProtected?, Token.significant?_append hG]
      exact .inl rfl
    · exact .inl rfl
  rcases huse with huse | ⟨site, hgap, hsame⟩
  · exact scanTokens_word_congr huse (scanTokens_gap hG _ _)
  · rw [scanTokens_use hgap, scanTokens_use hsame, scanTokens_gap hG]
    rfl

/-- After tokens that a scan reads to their end it finds the same across any gap. -/
theorem scanTokens_across (hG : IsSpace G) (hG' : IsSpace G') (B : List Token)
    (hends : reachesEnd h ts = true) :
    scanTokens h (ts ++ (G ++ B)) = scanTokens h (ts ++ (G' ++ B)) := by
  induction h, ts using scan_induction with
  | done h =>
    rw [List.nil_append, List.nil_append, scanTokens_gap hG.isGap, scanTokens_gap hG'.isGap]
  | opened h t ts ht => exact absurd hends (not_reachesEnd_open ht)
  | stop h w p ts site hu => exact absurd hends (not_reachesEnd_stop hu)
  | step h ts found h' ts' hs ih =>
    have hrest := ih (reachesEnd_step hs ▸ hends)
    cases hs with
    | @gap t _ ht =>
      have hgap : ∀ us, scanTokens h (t :: us) = scanTokens h us := fun us =>
        (Step.gap ht).scanTokens_eq
      rw [List.cons_append, List.cons_append, hgap, hgap, hrest]
    | @mark t _ m hm hword =>
      obtain ⟨l, p⟩ := t
      cases l with
      | word w =>
        obtain rfl := Option.some.inj hm
        exact scanTokens_word_congr (use?_across hG.isGap hG'.isGap (hword w rfl)) hrest
      | _ =>
        have hmark := fun us => (@Step.mark h _ us m hm (by simp)).scanTokens_eq
        rw [List.cons_append, List.cons_append, hmark, hmark, hrest]
    | @use w p ts _ site hu =>
      by_cases hts : IsGap ts
      · -- The word is the last one, and what it is followed by stands after the gap.
        have hgaps : ∀ G, IsSpace G → scanTokens h (⟨.word w, p⟩ :: ts ++ (G ++ B)) =
            scanTokens h (⟨.word w, p⟩ :: B) := by
          intro G hG
          rw [List.cons_append, ← List.append_assoc,
            scanTokens_word_gap (List.forall_mem_append.mpr ⟨hts, hG.isGap⟩)]
        rw [hgaps G hG, hgaps G' hG']
      · have hmore : ∀ G, IsSpace G → scanTokens h (⟨.word w, p⟩ :: ts ++ (G ++ B)) =
            site.elim [] (made h) ++ scanTokens _ (ts' ++ (G ++ B)) := fun G hG =>
          (Step.use (use?_append hts hu (hG.head?_source B))).scanTokens_eq
        rw [hmore G hG, hmore G' hG']
        exact congrArg _ hrest

/-! The same in a text. -/

section Text

variable {a s next : Text}

/-- What follows a source that has its first line belongs to the program. -/
theorem program_append (ha : a.head? = some hash → lineFeed ∈ a) (hs : s.head? ≠ some hash) :
    prologue (a ++ s) = prologue a ∧ program (a ++ s) = program a ++ s := by
  by_cases hhash : a.head? = some hash
  · have hmore : (a ++ s).head? = some hash := by rw [List.head?_append, hhash]; rfl
    rcases eq_firstLine_or a with ⟨_, hline⟩ | ⟨rest, hdrop, _⟩
    · exact absurd (hline ▸ ha hhash) (lineFeed_notMem_firstLine a)
    · have hne : a.dropWhile (· != lineFeed) ≠ [] := by simp [hdrop]
      obtain ⟨htake', hdrop'⟩ := dropWhile_append_of_ne_nil hne s
      simp only [prologue, program, if_pos hhash, if_pos hmore, firstLine, afterFirstLine, htake',
        hdrop', hdrop]
      exact ⟨rfl, rfl⟩
  · have hmore : (a ++ s).head? ≠ some hash := by
      cases a with
      | nil => exact hs
      | cons u a => exact hhash
    rw [prologue, prologue, program, program, if_neg hhash, if_neg hhash, if_neg hmore,
      if_neg hmore]
    exact ⟨rfl, rfl⟩

/-- A first line for the operating system goes on to its line feed. -/
theorem tokens_firstLine (hhash : a.head? = some hash) (ha : lineFeed ∉ a) (hs : lineFeed ∉ s)
    (hnext : ∀ u ∈ next.head?, u = lineFeed) :
    tokens (a ++ (s ++ next)) =
      Token.place (Position.start.after (next.take 1)) (lexemes next.tail) := by
  have hline : lineFeed ∉ a ++ s := by simp [ha, hs]
  have hrun : ∀ u ∈ a ++ s, (u != lineFeed) = true := fun u hu =>
    bne_iff_ne.mpr fun he => hline (he ▸ hu)
  have hstop : ∀ u ∈ next.head?, (u != lineFeed) = false := fun u hu => by simp [hnext u hu]
  obtain ⟨htake, hdrop⟩ := takeWhile_run hrun hstop
  have hhead : (a ++ s ++ next).head? = some hash := by
    rw [List.append_assoc, List.head?_append, hhash]
    rfl
  rw [← List.append_assoc, tokens, if_pos hhead, firstLine, afterFirstLine, htake, hdrop,
    Token.place_next hline hnext]

/-- The tokens of a source with blanks and a comment at the end of a line, up to them and after
them. -/
theorem exists_tokens_remark (hruns : RunsToEnd a) (ha : a.head? = some hash → lineFeed ∈ a)
    (hnext : ∀ u ∈ next.head?, u = lineFeed) :
    ∃ ts B, reachesEnd .empty ts = true ∧ ∀ s, Remark (space :: s) →
      ∃ G, IsSpace G ∧ tokens (a ++ (space :: s ++ next)) = ts ++ (G ++ B) := by
  obtain ⟨_, _, hsteps⟩ := reachesEnd_iff.mp hruns
  rw [tokens_eq] at hsteps
  have hclosed := hsteps.closed
  obtain ⟨front, back, hsplit, hends, hback⟩ := exists_lastLine (program a)
  have hform := formed_of_closed hclosed
  rw [hsplit] at hform
  have htext : (front ++ back).flatMap text = program a := by rw [← hsplit, lexemes_text]
  have hls : lexemes ((front ++ back).flatMap text) = front ++ back := by rw [htext, hsplit]
  have hgap : ∀ l ∈ back, l.isGap = true := by
    rcases hback with rfl | ⟨body, _, rfl⟩ <;> simp [isGap]
  have hline : lineFeed ∉ back.flatMap text := by
    rcases hback with rfl | ⟨body, hbody, rfl⟩
    · simp
    · simpa [text] using (Remark.comment hbody).lineFeed_notMem
  generalize hp : Position.start.after (prologue a) = p
  refine ⟨Token.place p front, Token.place ((p.after (front.flatMap text)).after (next.take 1))
    (lexemes next.tail), ?_, fun s hs => ?_⟩
  · have hend : IsTrailing (Token.place (p.after (front.flatMap text)) back) :=
      .of_text (Token.isGap_place hgap _) (congrArg _ (lexemes_suffix hls).symm)
    refine reachesEnd_of_trailing hend ?_
    rwa [← Token.place_append, ← hsplit, ← hp, ← tokens_eq]
  · -- A comment that has no line feed yet takes the new one in.
    have hremark : Remark (back.flatMap text ++ space :: s) := by
      rcases hback with rfl | ⟨body, hbody, rfl⟩
      · exact hs
      · have := hbody.append_blank (by decide : isBlank space = true) hs.lineFeed_notMem
        simpa [text] using Remark.comment this
    obtain ⟨gap, hgaps, hgaptext, hmore⟩ := hremark.lexemes_append hnext
    have hne : gap ≠ [] := by
      rintro rfl
      simp at hgaptext
    refine ⟨Token.place (p.after (front.flatMap text)) gap, Token.isSpace_place hne hgaps _, ?_⟩
    obtain ⟨hprologue, hprogram⟩ :=
      @program_append a (space :: s ++ next) ha (by simp; decide)
    rw [tokens_eq, hprologue, hprogram, hp, ← htext, List.cons_append,
      lexemes_append_blank hls (fun l hl => hform l (List.mem_append_left _ hl)) hends (by decide),
      ← List.cons_append, ← List.append_assoc, hmore, Token.place_append, Token.place_append,
      hgaptext, Token.place_next hremark.lineFeed_notMem hnext]

/-- Blanks and comments at the end of a line do not change what a scan finds. -/
theorem scan_remark {s' : Text} (hruns : RunsToEnd a) (hs : Remark (space :: s))
    (hs' : Remark (space :: s')) (hnext : ∀ u ∈ next.head?, u = lineFeed) :
    scan (a ++ (space :: s ++ next)) = scan (a ++ (space :: s' ++ next)) := by
  by_cases ha : a.head? = some hash → lineFeed ∈ a
  · obtain ⟨ts, B, hends, htokens⟩ := exists_tokens_remark hruns ha hnext
    obtain ⟨G, hG, hsame⟩ := htokens s hs
    obtain ⟨G', hG', hsame'⟩ := htokens s' hs'
    rw [scan, scan, hsame, hsame', scanTokens_across hG hG' B hends]
  · obtain ⟨hhash, hline⟩ := Classical.not_imp.mp ha
    rw [scan, scan, tokens_firstLine hhash hline hs.lineFeed_notMem hnext,
      tokens_firstLine hhash hline hs'.lineFeed_notMem hnext]

end Text

/-- A carriage return does not end a comment: the rest of the line, up to a line feed, is as if it
were not there. -/
theorem scan_comment_return {a c : Text} (hruns : RunsToEnd a) (hc : IsLine c) (b : Text) :
    scan (a ++ (" --" ++ c ++ carriageReturn :: b)) =
      scan (a ++ (space :: carriageReturn :: b.dropWhile (· != lineFeed))) := by
  have hfeed : lineFeed ∉ carriageReturn :: firstLine b := by
    rw [List.mem_cons, not_or]
    exact ⟨by decide, lineFeed_notMem_firstLine b⟩
  have hcomment : Remark (space :: dash :: dash :: (c ++ carriageReturn :: firstLine b)) :=
    .blank (by decide) (by decide) (.comment (hc.append_blank (by decide) hfeed))
  have hblanks : Remark [space, carriageReturn] :=
    .blank (by decide) (by decide) (.blank (by decide) (by decide) .nil)
  have hnext : ∀ u ∈ (b.dropWhile (· != lineFeed)).head?, u = lineFeed := by
    intro u hu
    have := List.head?_dropWhile_not (· != lineFeed) b
    rw [Option.mem_def.mp hu] at this
    simpa using this
  have htext : (" --" ++ c ++ carriageReturn :: b : Text) =
      space :: (dash :: dash :: (c ++ carriageReturn :: firstLine b)) ++
        b.dropWhile (· != lineFeed) := by
    have hb : firstLine b ++ b.dropWhile (· != lineFeed) = b := List.takeWhile_append_dropWhile
    have hdashes : (" --" : Text) = [space, dash, dash] := by decide
    simp [hdashes, hb]
  rw [htext]
  exact scan_remark hruns hcomment hblanks hnext

/-- The line that a carriage return starts is lost after a comment; the next one is not. -/
theorem scan_comment_return_use :
    RunsToEnd "local x" ∧ IsLine "c" ∧
      scan ("local x" ++ (" --" ++ "c" ++ carriageReturn :: "require 'y'\nrequire 'z'")) =
        scan ("local x" ++ (space :: carriageReturn :: "\nrequire 'z'")) ∧
      scan ("local x" ++ (space :: carriageReturn :: "\nrequire 'z'")) =
        [literal ⟨2, 1⟩ "z" "'z'"] ∧
      scan ("local x" ++ (space :: carriageReturn :: "require 'y'\nrequire 'z'")) =
        [literal ⟨1, 10⟩ "y" "'y'", literal ⟨2, 1⟩ "z" "'z'"] := by
  have hruns : RunsToEnd "local x" := by decide +kernel
  have hline : IsLine "c" := ⟨by decide, Lexeme.openingLevel?_eq_none_iff.mp (by decide)⟩
  exact ⟨hruns, hline, scan_comment_return hruns hline "require 'y'\nrequire 'z'",
    by decide +kernel, by decide +kernel⟩

end RequireSite

end LuaBundle
