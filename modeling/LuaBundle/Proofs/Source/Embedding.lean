import LuaBundle.Bundle.Basic
import LuaBundle.Proofs.Source.Context
import LuaBundle.Proofs.Source.LineEnd

/-! A source inside another text. A scan that comes to a body on lines of its own finds there what a
scan of the source finds that the body was made from, as many lines further down. -/

namespace LuaBundle

open Text

namespace Position

/-- The position `n` lines further down. -/
def down (n : Nat) (p : Position) : Position := ⟨p.line + n, p.column⟩

theorem after_down (n : Nat) (p : Position) (t : Text) :
    (p.down n).after t = (p.after t).down n := by
  induction t generalizing p with
  | nil => rfl
  | cons u t ih =>
    have hstep : (p.down n).step u = (p.step u).down n := by
      unfold step down
      split
      · simp [Nat.add_right_comm]
      · rfl
    rw [after_cons, after_cons, hstep, ih]

/-- A line leads to the start of the next one. -/
theorem after_line {t : Text} (h : lineFeed ∉ t) (p : Position) :
    p.after (t ++ [lineFeed]) = ⟨p.line + 1, 1⟩ := by
  induction t generalizing p with
  | nil => rfl
  | cons u t ih =>
    rw [List.mem_cons, not_or] at h
    rw [List.cons_append, after_cons, ih h.2, step, if_neg (Ne.symm h.1)]

end Position

namespace Token

/-- Lexemes in a row at another place, where the units of a text are as far from each other. -/
theorem map_move_place {f : Position → Position} {p : Position}
    (hf : ∀ t, (f p).after t = f (p.after t)) (ls : List Lexeme) :
    (place p ls).map (move f) = place (f p) ls := by
  induction ls generalizing p with
  | nil => rfl
  | cons l ls ih =>
    have hafter : ∀ t, (f (p.after l.text)).after t = f ((p.after l.text).after t) := fun t => by
      rw [← hf, ← Position.after_append, hf, Position.after_append]
    rw [place, place, List.map_cons, ih hafter, hf]
    rfl

theorem forall_lexemes_place {ls : List Lexeme} {P : Lexeme → Prop} {p : Position}
    (h : ∀ t ∈ place p ls, P t.lexeme) : ∀ l ∈ ls, P l := by
  induction ls generalizing p with
  | nil => simp
  | cons l ls ih =>
    obtain ⟨hl, hls⟩ := List.forall_mem_cons.mp h
    exact List.forall_mem_cons.mpr ⟨hl, ih hls⟩

theorem isGap_place {ls : List Lexeme} (h : ∀ l ∈ ls, l.isGap = true) (p : Position) :
    IsGap (place p ls) :=
  fun _ ht => h _ (mem_lexemes_of_mem_place ht)

theorem significant?_place {gap : List Lexeme} (h : ∀ l ∈ gap, l.isGap = true) (p : Position)
    (ls : List Lexeme) : significant? (place p (gap ++ ls)) =
      significant? (place (p.after (gap.flatMap Lexeme.text)) ls) := by
  rw [place_append, significant?_append (isGap_place h p)]

theorem IsTrailing.of_text {p : Position} {s : Text} {ts : List Token} (hgap : IsGap ts)
    (hts : ts = place p (lexemes s)) : IsTrailing ts :=
  ⟨hgap, (Inert.of_text hts hgap.significant?_eq (by simp)).head⟩

/-- What a text goes on with after a gap takes part in no use, if it starts with another word. -/
theorem Inert.of_suffix {p q : Position} {s more w : Text} {gap rest : List Lexeme}
    (hsuffix : place q (gap ++ lexemes more) <:+ place p (lexemes s))
    (hgap : ∀ l ∈ gap, l.isGap = true) (hword : lexemes more = .word w :: rest)
    (hne : w ≠ "require") : Inert (place q (gap ++ lexemes more)) := by
  obtain ⟨r, t, ht⟩ := exists_text_of_suffix rfl hsuffix
  refine .of_text ht ((significant?_place hgap _ _).trans (by rw [hword]; rfl))
    fun u hu => ⟨w, ?_, hne⟩
  rw [← Option.some.inj hu]

end Token

namespace RequireSite

open Token (significant? IsGap Inert)

/-- The site as many lines further down. -/
def down (n : Nat) : RequireSite → RequireSite := moved (Position.down n)

/-- The sites in a text that stands in another one. -/
def sitesFrom (h : History) (p : Position) (t : Text) : List RequireSite :=
  scanTokens h (Token.place p (lexemes t))

theorem scan_eq {t : Text} (h : t.head? ≠ some hash) : scan t = sitesFrom .empty .start t := by
  rw [scan, tokens, if_neg h]
  rfl

theorem lexemes_nil : lexemes [] = [] := by rw [lexemes]

theorem lexemes_blank {u : UInt16} (h : isBlank u = true) (t : Text) :
    lexemes (u :: t) = .blank u :: lexemes t := by
  rw [lexemes, Lexeme.read, if_pos h]

theorem lexemes_lineFeed (t : Text) : lexemes (lineFeed :: t) = .blank lineFeed :: lexemes t :=
  lexemes_blank (by decide) t

theorem scanTokens_gap {gap : List Token} (hgap : IsGap gap) (h : History) (ts : List Token) :
    scanTokens h (gap ++ ts) = scanTokens h ts := by
  induction gap with
  | nil => rfl
  | cons t gap ih =>
    obtain ⟨ht, hgap⟩ := List.forall_mem_cons.mp hgap
    rw [List.cons_append, (Step.gap ht).scanTokens_eq, ih hgap]
    rfl

/-- A scan that comes to the end of a text leaves nothing open. -/
theorem Steps.closed {h h' : History} {p : Position} {ls : List Lexeme}
    {sites : List RequireSite} (hs : Steps h (Token.place p ls) sites h' []) :
    ∀ l ∈ ls, l.isOpen = false := by
  obtain ⟨taken, hsplit, hall, _⟩ := hs.split
  rw [List.append_nil] at hsplit
  subst hsplit
  exact Token.forall_lexemes_place hall

/-- A first line for the operating system counts as an empty line of the body. -/
theorem steps_moduleBody {source : Text} {sites : List RequireSite} {h : History}
    (hs : Steps .empty (tokens source) sites h []) :
    Steps .empty (Token.place .start (lexemes (Bundle.moduleBody source))) sites h [] := by
  rw [tokens] at hs
  rw [Bundle.moduleBody]
  split at hs
  · rename_i hhash
    rw [if_pos hhash]
    cases hdrop : source.dropWhile (· != lineFeed) with
    | nil =>
      rw [afterFirstLine, hdrop, List.tail_nil] at hs
      rw [lexemes_nil] at hs ⊢
      exact hs
    | cons u rest =>
      have hu : u = lineFeed := by
        have := List.head?_dropWhile_not (fun v => v != lineFeed) source
        rw [hdrop] at this
        simpa using this
      subst hu
      have hline : lineFeed ∉ firstLine source := by
        intro hmem
        have := List.all_eq_true.mp List.all_takeWhile _ hmem
        simp at this
      have hstart : Position.start.after (firstLine source ++ [lineFeed]) =
          Position.start.after [lineFeed] := by
        rw [Position.after_line hline]
        rfl
      rw [afterFirstLine, hdrop, List.tail_cons] at hs
      rw [lexemes_lineFeed]
      have htaken : source.firstLine ++ [lineFeed] =
          source.firstLine ++ (lineFeed :: rest).take 1 := rfl
      rw [← htaken, hstart] at hs
      exact .step (.gap rfl) hs
  · rename_i hhash
    rwa [if_neg hhash]

/-- The body of a source that a scan reads to its end, with a line feed and a word after it. -/
theorem RunsToEnd.sitesFrom_eq {source : Text} (hruns : RunsToEnd source) {g : History}
    (hg : Alike .empty g) (n : Nat) :
    ∃ g', ∀ more w rest, lexemes more = .word w :: rest → w ≠ "require" →
      sitesFrom g ⟨n + 1, 1⟩ (Bundle.moduleBody source ++ lineFeed :: more) =
        (scan source).map (down n) ++
          sitesFrom g' (Position.after ⟨n + 1, 1⟩ (Bundle.moduleBody source ++ [lineFeed]))
            more := by
  obtain ⟨sites, h', hs⟩ := reachesEnd_iff.mp hruns
  have hscan : scan source = sites := by
    rw [scan, hs.scanTokens_eq]
    simp [scanTokens]
  have hbody := steps_moduleBody hs
  generalize Bundle.moduleBody source = body at hbody
  obtain ⟨ls, gap, gap', hls, hgap, hgap', hmore⟩ := exists_lexemes_lineFeed hbody.closed
  have hplace : Token.place .start (lexemes body) = _ :=
    (congrArg _ hls).trans (Token.place_append .start ls gap)
  have htrailing : Token.IsTrailing
      (Token.place (Position.start.after (ls.flatMap Lexeme.text)) gap) := by
    obtain ⟨q, s, hs⟩ := Token.exists_text_of_suffix rfl (hplace ▸ List.suffix_append _ _)
    exact .of_text (Token.isGap_place hgap _) hs
  rw [hplace] at hbody
  obtain ⟨g', hsteps⟩ := hbody.elsewhere (Position.down n) hg htrailing
  refine ⟨g', fun more w rest hword hne => ?_⟩
  have hstart : Position.start.down n = ⟨n + 1, 1⟩ := by
    rw [Position.down, Position.start, Nat.add_comm]
  have hinside : Token.place ⟨n + 1, 1⟩ (lexemes (body ++ lineFeed :: more)) = _ :=
    (congrArg _ (hmore more)).trans (Token.place_append _ ls _)
  have hinert : Inert (Token.place (Position.after ⟨n + 1, 1⟩ (ls.flatMap Lexeme.text))
      (gap' ++ lexemes more)) :=
    .of_suffix (hinside ▸ List.suffix_append _ _) hgap' hword hne
  have htexts : ls.flatMap Lexeme.text ++ gap'.flatMap Lexeme.text = body ++ [lineFeed] := by
    have := lexemes_text (body ++ lineFeed :: more)
    rw [hmore more, List.flatMap_append, List.flatMap_append, lexemes_text, ← List.append_assoc,
      List.append_cons body] at this
    exact List.append_cancel_right this
  have hscanned := (hsteps _ hinert).scanTokens_eq
  rw [Token.map_move_place (Position.after_down n _), hstart, ← hinside] at hscanned
  rw [sitesFrom, hscanned, hscan, Token.place_append,
    scanTokens_gap (Token.isGap_place hgap' _), ← Position.after_append, htexts]
  rfl

/-! Texts between the sources: the scan passes them without finding a site. -/

/-- A scan that comes to `s` goes on after it, with no site for it. -/
def Silent (s : Text) : Prop :=
  ∀ h p t, ∃ g, sitesFrom h p (s ++ t) = sitesFrom g (p.after s) t

/-- Whether a lexeme is passed by a scan, whatever stands around it. -/
def passes : Lexeme → Bool
  | .word w => w != "require" && w != "pcall"
  | l => !l.isOpen

theorem scanTokens_passes {ls : List Lexeme} (h : ls.all passes = true) (g : History)
    (p : Position) (ts : List Token) :
    scanTokens g (Token.place p ls ++ ts) = scanTokens (g.pushAll ls) ts := by
  rw [List.all_eq_true] at h
  refine scanTokens_place (fun l hl t => ?_) (fun w hw => ?_) g p ts
  · constructor <;> rintro rfl <;> exact Bool.noConfusion (h _ hl)
  · simpa [passes] using h _ hw

/-- Whatever follows it, `s` has the lexemes `ls`. -/
def Apart (s : Text) (ls : List Lexeme) : Prop := ∀ t, lexemes (s ++ t) = ls ++ lexemes t

namespace Apart

variable {s s' : Text} {ls ls' : List Lexeme}

theorem nil : Apart [] [] := fun _ => rfl

theorem append (h : Apart s ls) (h' : Apart s' ls') : Apart (s ++ s') (ls ++ ls') := fun t => by
  rw [List.append_assoc, h, h', List.append_assoc]

theorem blank {u : UInt16} (hu : isBlank u = true) (h : Apart s ls) :
    Apart (u :: s) (.blank u :: ls) := fun t => by
  rw [List.cons_append, lexemes_blank hu, h]
  rfl

theorem symbols (hs : s.all isPlainSymbol = true) : Apart s (s.map .symbol) := fun _ =>
  Lua.lexemes_plainSymbols hs

theorem word {w : Text} (hne : w ≠ []) (hall : w.all isWordUnit = true)
    (hstop : s.head?.map isWordUnit = some false) (h : Apart s ls) :
    Apart (w ++ s) (.word w :: ls) := fun t => by
  have hafter : Lua.startsWord (s ++ t) = false := by
    cases s with
    | nil => cases hstop
    | cons u s => exact Option.some.inj hstop
  rw [List.append_assoc, lexemes_word hne (List.all_eq_true.mp hall) hafter, h]
  rfl

theorem text_eq (h : Apart s ls) : ls.flatMap Lexeme.text = s := by
  have htext := lexemes_text (s ++ [])
  rw [h, List.flatMap_append, lexemes_text] at htext
  exact List.append_cancel_right htext

end Apart

theorem sitesFrom_append {s : Text} {ls : List Lexeme} (h : Apart s ls)
    (hs : ls.all passes = true) (g : History) (p : Position) (t : Text) :
    sitesFrom g p (s ++ t) = sitesFrom (g.pushAll ls) (p.after s) t := by
  rw [sitesFrom, h, Token.place_append, h.text_eq, scanTokens_passes hs]
  rfl

theorem Silent.of_apart {s : Text} {ls : List Lexeme} (hs : ls.all passes = true)
    (h : Apart s ls) : Silent s := fun g p t => ⟨g.pushAll ls, sitesFrom_append h hs g p t⟩

theorem Silent.newline : Silent [lineFeed] := .of_apart rfl (.blank (by decide) .nil)

theorem Silent.nil : Silent [] := fun h _ _ => ⟨h, rfl⟩

theorem Silent.sitesFrom_eq_nil {s : Text} (hs : Silent s) (h : History) (p : Position) :
    sitesFrom h p s = [] := by
  obtain ⟨g, hg⟩ := hs h p []
  rw [List.append_nil] at hg
  rw [hg, sitesFrom, lexemes_nil]
  simp [Token.place, scanTokens]

theorem Silent.append {s t : Text} (hs : Silent s) (ht : Silent t) : Silent (s ++ t) := by
  intro h p more
  obtain ⟨g, hg⟩ := hs h p (t ++ more)
  obtain ⟨g', hg'⟩ := ht g (p.after s) more
  exact ⟨g', by rw [List.append_assoc, hg, hg', Position.after_append]⟩

theorem Silent.flatMap {α : Type} {xs : List α} {text : α → Text} (h : ∀ x ∈ xs, Silent (text x)) :
    Silent (xs.flatMap text) := by
  induction xs with
  | nil => exact .nil
  | cons x xs ih =>
    obtain ⟨hx, hxs⟩ := List.forall_mem_cons.mp h
    rw [List.flatMap_cons]
    exact hx.append (ih hxs)

theorem History.pushAll_gap {gap : List Lexeme} (hgap : ∀ l ∈ gap, l.isGap = true) (h : History) :
    h.pushAll gap = h := by
  have hnone : gap.filterMap mark? = [] := by
    refine List.filterMap_eq_nil_iff.mpr fun l hl => ?_
    have := hgap l hl
    cases l <;> first | rfl | cases this
  rw [History.pushAll, hnone]
  rfl

/-- A line of code without a use, with its line feed. -/
theorem Apart.line {s : Text} (h : (lexemes s).all passes = true) :
    ∃ ls, Apart (s ++ [lineFeed]) ls ∧ ls.all passes = true ∧
      ∀ g : History, g.pushAll ls = g.pushAll (lexemes s) := by
  have hclosed : ∀ l ∈ lexemes s, l.isOpen = false := by
    intro l hl
    have hpasses := List.all_eq_true.mp h l hl
    cases l <;> first | rfl | cases hpasses
  obtain ⟨ls, gap, gap', hls, hgap, hgap', hmore⟩ := exists_lexemes_lineFeed hclosed
  rw [hls, List.all_append, Bool.and_eq_true] at h
  have hgapped : gap'.all passes = true := by
    refine List.all_eq_true.mpr fun l hl => ?_
    have := hgap' l hl
    cases l <;> first | rfl | cases this
  refine ⟨ls ++ gap', fun t => ?_, by rw [List.all_append, h.1, hgapped]; rfl, fun g => ?_⟩
  · rw [List.append_assoc, List.append_assoc]
    exact hmore t
  · rw [hls, History.pushAll_append, History.pushAll_append, History.pushAll_gap hgap,
      History.pushAll_gap hgap']

theorem Silent.line {s : Text} (h : (lexemes s).all passes = true) : Silent (s ++ [lineFeed]) := by
  obtain ⟨_, hapart, hpasses, _⟩ := Apart.line h
  exact .of_apart hpasses hapart

theorem sitesFrom_lineFeed (g : History) (p : Position) (t : Text) :
    sitesFrom g p (lineFeed :: t) = sitesFrom g (p.step lineFeed) t :=
  sitesFrom_append (.blank (by decide) .nil) rfl g p t

/-- A comment of one line. -/
theorem Silent.comment {c : Text} (h : lineFeed ∉ c) :
    Silent (dash :: dash :: space :: c ++ [lineFeed]) := by
  refine @Silent.of_apart _ [.comment (dash :: dash :: space :: c ++ [lineFeed])] rfl fun t => ?_
  have hall : ∀ u ∈ space :: c, (u != lineFeed) = true := by
    intro u hu
    rcases List.mem_cons.mp hu with rfl | hu
    · decide
    · exact bne_iff_ne.mpr fun he => h (he ▸ hu)
  obtain ⟨htake, hdrop⟩ := @takeWhile_append_stop (· != lineFeed) lineFeed (by decide)
    (space :: c) t
  rw [List.takeWhile_eq_self_iff.mpr hall] at htake
  rw [List.dropWhile_eq_nil_iff.mpr hall] at hdrop
  have hread : Lexeme.read dash (dash :: (space :: c ++ lineFeed :: t)) =
      (.comment (dash :: dash :: space :: c ++ [lineFeed]), t) := by
    rw [Lexeme.read, if_neg (by decide), if_neg (by decide), if_neg (by decide), if_pos ⟨rfl, rfl⟩,
      List.tail_cons, Lexeme.readComment, List.cons_append,
      Lexeme.openingLevel?_eq_none (by decide), ← List.cons_append, hdrop]
    simp only [List.nil_append, htake]
  have htext : dash :: dash :: space :: c ++ [lineFeed] ++ t =
      dash :: dash :: (space :: c ++ lineFeed :: t) := by simp
  rw [htext, lexemes, hread]
  rfl

end RequireSite

end LuaBundle
