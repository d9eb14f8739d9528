import LuaBundle.Proofs.Source.Reading
import LuaBundle.Proofs.Source.Run

/-! A scan step by step: it passes a gap, remembers a token, or takes a use. The sites it finds
stand at the tokens it takes, in their order, so that a position tells whether a use it comes to got
a site. -/

namespace LuaBundle

open Text

theorem lexemes_start {t : Text} :
    ∀ l ∈ lexemes t, (∃ u, l = .blank u ∧ isBlank u = true) ∨
      ∃ u rest, l.text = u :: rest ∧ isBlank u = false := by
  fun_induction lexemes t with
  | case1 => simp
  | case2 u rest ih =>
    refine List.forall_mem_cons.mpr ⟨?_, ih⟩
    by_cases hblank : isBlank u = true
    · exact .inl ⟨u, by rw [Lexeme.read, if_pos hblank], hblank⟩
    · right
      have htext := Lexeme.read_text u rest
      obtain ⟨v, more, hv⟩ := List.exists_cons_of_ne_nil (Lexeme.text_read_ne_nil u rest)
      rw [hv, List.cons_append] at htext
      exact ⟨v, more, hv, by rw [(List.cons.inj htext).1]; exact Bool.eq_false_iff.mpr hblank⟩

theorem text_ne_nil_of_mem_lexemes {t : Text} {l : Lexeme} (h : l ∈ lexemes t) : l.text ≠ [] := by
  rcases lexemes_start l h with ⟨u, rfl, _⟩ | ⟨u, rest, htext, _⟩
  · simp [Lexeme.text]
  · simp [htext]

theorem lexemes_equals (t : Text) : lexemes (equals :: t) = .symbol equals :: lexemes t := by
  rw [lexemes]
  rfl

namespace Token

theorem mem_lexemes_of_mem_place {p : Position} {ls : List Lexeme} {t : Token}
    (h : t ∈ place p ls) : t.lexeme ∈ ls := by
  induction ls generalizing p with
  | nil => cases h
  | cons l ls ih =>
    rcases List.mem_cons.mp h with rfl | h
    · exact List.mem_cons_self
    · exact List.mem_cons_of_mem _ (ih h)

/-- A text that starts with an equality sign has it as its first token. -/
theorem eq_equals_of_head? {q : Position} {s : Text}
    (h : (source (place q (lexemes s))).head? = some equals) :
    ∃ rest, place q (lexemes s) = ⟨.symbol equals, q⟩ :: rest := by
  rw [source_place, lexemes_text] at h
  cases s with
  | nil => cases h
  | cons u s =>
    obtain rfl := Option.some.inj h
    exact ⟨_, by rw [lexemes_equals]; rfl⟩

theorem upTo_of_mem_place {p : Position} {ls : List Lexeme} :
    ∀ t ∈ place p ls, p.UpTo t.position := by
  induction ls generalizing p with
  | nil => simp [place]
  | cons l ls ih =>
    refine List.forall_mem_cons.mpr ⟨.refl p, fun t ht => ?_⟩
    exact (Position.upTo_after p l.text).trans (ih t ht)

/-- Positions grow along the tokens of a text. -/
theorem pairwise_place {ls : List Lexeme} (h : ∀ l ∈ ls, l.text ≠ []) (p : Position) :
    (place p ls).Pairwise fun s t => s.position.Before t.position := by
  induction ls generalizing p with
  | nil => exact .nil
  | cons l ls ih =>
    obtain ⟨hl, hls⟩ := List.forall_mem_cons.mp h
    refine .cons (fun t ht => ?_) (ih hls _)
    exact (Position.before_after hl p).trans_upTo (upTo_of_mem_place t ht)

theorem nodup_place {ls : List Lexeme} (h : ∀ l ∈ ls, l.text ≠ []) (p : Position) :
    ((place p ls).map (·.position)).Nodup := by
  rw [List.Nodup, List.pairwise_map]
  exact (pairwise_place h p).imp fun hbefore => hbefore.ne

/-- What is left of the tokens of a text are the tokens of a text. -/
theorem exists_text_of_suffix {p : Position} {t : Text} {ts us : List Token}
    (hts : ts = place p (lexemes t)) (h : us <:+ ts) : ∃ q s, us = place q (lexemes s) := by
  subst hts
  fun_induction lexemes t generalizing p with
  | case1 =>
    refine ⟨p, [], ?_⟩
    rw [lexemes]
    exact List.suffix_nil.mp h
  | case2 u rest ih =>
    rcases List.suffix_cons_iff.mp h with rfl | h
    · refine ⟨p, u :: rest, ?_⟩
      rw [lexemes]
      rfl
    · exact ih h

end Token

namespace RequireSite

open Token (AllClosed)

theorem nodup_tokens (t : Text) : ((tokens t).map (·.position)).Nodup := by
  rw [tokens_eq]
  exact Token.nodup_place (fun _ => text_ne_nil_of_mem_lexemes) _

section Use

variable {position : Position} {protectedCall : Bool} {h : History} {w : Text} {p : Position}
  {ts after : List Token}

theorem position_readArguments {site : RequireSite}
    (hs : (readArguments position protectedCall ts).site = some site) :
    site.position = position := by
  have hread := argumentsRead position protectedCall ts
  generalize readArguments position protectedCall ts = use at hs hread
  cases hread with
  | computed =>
    unfold readComputed at hs
    split at hs <;> exact Option.some.inj hs ▸ rfl
  | _ => exact Option.some.inj hs ▸ rfl

theorem position_readCall {site : RequireSite} (hs : (readCall position ts).site = some site) :
    site.position = position := by
  have hread := callRead position ts
  generalize readCall position ts = use at hs hread
  cases hread with
  | assigned => cases hs
  | arguments => exact position_readArguments hs
  | _ => exact Option.some.inj hs ▸ rfl

/-- The name of the use that a site stands for, among the tokens from the use on. -/
theorem exists_name_of_use? {site : RequireSite} {rest : Option (List Token)}
    (hu : use? h w p ts = some ⟨some site, rest⟩) :
    ∃ front back, ⟨.word w, p⟩ :: ts = front ++ ⟨.word "require", site.position⟩ :: back ∧
      ∀ after ∈ rest, after <:+ back := by
  rw [use?] at hu
  split at hu
  · rename_i hw
    have hread := Option.some.inj hu
    have hposition := position_readCall (congrArg Use.site hread)
    refine ⟨[], ts, by rw [hw.1, hposition]; rfl, fun after hafter => ?_⟩
    rcases takes_readCall ((congrArg Use.rest hread).trans hafter) with rfl | htakes
    · exact List.suffix_rfl
    · exact htakes.suffix
  · split at hu
    · obtain ⟨_, q, _, parens, names, commas, hparens, hnames, hcommas, hread⟩ :=
        readProtected?_eq_some hu
      have hposition := position_readArguments (congrArg Use.site hread).symm
      have hsuffix : ⟨.word "require", q⟩ :: names <:+ ts :=
        (Token.suffix_of_significant? hnames).trans
          ((List.suffix_cons _ _).trans (Token.suffix_of_significant? hparens))
      obtain ⟨front, rfl⟩ := hsuffix
      refine ⟨⟨.word w, p⟩ :: front, names, by rw [hposition]; rfl, fun after hafter => ?_⟩
      have htakes := takes_readArguments ((congrArg Use.rest hread).symm.trans hafter)
      exact htakes.suffix.trans
        ((List.suffix_cons _ _).trans (Token.suffix_of_significant? hcommas))
    · cases hu

theorem takes_use? {site : Option RequireSite} (hu : use? h w p ts = some ⟨site, some after⟩) :
    w = "require" ∧ after = ts ∨ Takes ts after := by
  rw [use?] at hu
  split at hu
  · rename_i hw
    exact (takes_readCall (congrArg Use.rest (Option.some.inj hu))).imp_left fun he => ⟨hw.1, he⟩
  · split at hu
    · exact .inr (takes_readProtected? hu rfl)
    · cases hu

end Use

/-- A step of a scan: the sites that it finds, and what the scan goes on with. -/
inductive Step : History → List Token → List RequireSite → History → List Token → Prop
  | gap {h : History} {t : Token} {ts : List Token} (ht : t.lexeme.isGap = true) :
    Step h (t :: ts) [] h ts
  | mark {h : History} {t : Token} {ts : List Token} {m : Mark} (hm : mark? t.lexeme = some m)
    (hword : ∀ w, t.lexeme = .word w → use? h w t.position ts = none) :
    Step h (t :: ts) [] (h.push m) ts
  | use {h : History} {w : Text} {p : Position} {ts after : List Token}
    {site : Option RequireSite} (hu : use? h w p ts = some ⟨site, some after⟩) :
    Step h (⟨.word w, p⟩ :: ts) (site.elim [] (made h))
      (h.push (markOf w ⟨site, some after⟩)) after

/-- A run of steps. -/
inductive Steps : History → List Token → List RequireSite → History → List Token → Prop
  | refl {h : History} {ts : List Token} : Steps h ts [] h ts
  | step {h h₁ h' : History} {ts ts₁ ts' : List Token} {found sites : List RequireSite}
    (hstep : Step h ts found h₁ ts₁) (hrest : Steps h₁ ts₁ sites h' ts') :
    Steps h ts (found ++ sites) h' ts'

variable {h h' : History} {ts ts' : List Token} {sites : List RequireSite}

theorem filter_keepsName (h : History) (site : Option RequireSite) :
    (site.filter fun site => !keepsName h site).toList = site.elim [] (made h) := by
  cases site with
  | none => rfl
  | some site => cases hkeeps : keepsName h site <;> simp [made, hkeeps, Option.filter]

/-- A comment or a string that is not closed ends the scan. -/
theorem scanTokens_open {t : Token} (ht : t.lexeme.isOpen = true) :
    scanTokens h (t :: ts) = [] := by
  obtain ⟨l, p⟩ := t
  rw [scanTokens]
  cases l <;> first | rfl | cases ht

/-- A use that is not closed ends the scan. -/
theorem scanTokens_stop {w : Text} {p : Position} {site : Option RequireSite}
    (hu : use? h w p ts = some ⟨site, none⟩) :
    scanTokens h (⟨.word w, p⟩ :: ts) = site.elim [] (made h) := by
  rw [scanTokens]
  simp only
  split
  · rename_i hu'
    rw [hu] at hu'
    cases hu'
  · rename_i use hu'
    rw [hu] at hu'
    obtain rfl := Option.some.inj hu'
    exact (List.append_nil _).trans (filter_keepsName h site)

theorem Step.scanTokens_eq (hs : Step h ts sites h' ts') :
    scanTokens h ts = sites ++ scanTokens h' ts' := by
  cases hs with
  | @gap t _ ht =>
    obtain ⟨l, p⟩ := t
    rw [scanTokens]
    cases l <;> first | rfl | cases ht
  | @mark t _ m hm hword =>
    obtain ⟨l, p⟩ := t
    cases l with
    | word w =>
      obtain rfl := Option.some.inj hm
      exact scanTokens_word (hword w rfl)
    | quoted q body =>
      obtain rfl := Option.some.inj hm
      rw [scanTokens]
      rfl
    | bracketed level body =>
      obtain rfl := Option.some.inj hm
      rw [scanTokens]
      rfl
    | symbol u =>
      obtain rfl := Option.some.inj hm
      rw [scanTokens]
      rfl
    | _ => cases hm
  | use hu => rw [scanTokens_use hu, filter_keepsName]

theorem Steps.scanTokens_eq (hs : Steps h ts sites h' ts') :
    scanTokens h ts = sites ++ scanTokens h' ts' := by
  induction hs with
  | refl => rfl
  | step hstep _ ih => rw [hstep.scanTokens_eq, ih, List.append_assoc]

/-- What holds where a scan ends, and before a step if it holds after it, holds of every scan. -/
theorem scan_induction {motive : History → List Token → Prop} (done : ∀ h, motive h [])
    (opened : ∀ h t ts, t.lexeme.isOpen = true → motive h (t :: ts))
    (stop : ∀ h w p ts site, use? h w p ts = some ⟨site, none⟩ → motive h (⟨.word w, p⟩ :: ts))
    (step : ∀ h ts sites h' ts', Step h ts sites h' ts' → motive h' ts' → motive h ts)
    (h : History) (ts : List Token) : motive h ts := by
  fun_induction scanTokens h ts with
  | case1 h => exact done h
  | case2 h t rest u ht ih => exact step _ _ _ _ _ (.gap (by rw [ht]; rfl)) ih
  | case3 h t rest s ht ih => exact step _ _ _ _ _ (.gap (by rw [ht]; rfl)) ih
  | case4 h t rest s ht => exact opened h t rest (by rw [ht]; rfl)
  | case5 h t rest s ht => exact opened h t rest (by rw [ht]; rfl)
  | case6 h t rest q body ht ih => exact step _ _ _ _ _ (.mark (by rw [ht]; rfl) (by simp [ht])) ih
  | case7 h t rest level body ht ih =>
    exact step _ _ _ _ _ (.mark (by rw [ht]; rfl) (by simp [ht])) ih
  | case8 h t rest u ht ih => exact step _ _ _ _ _ (.mark (by rw [ht]; rfl) (by simp [ht])) ih
  | case9 h t rest w ht hu ih =>
    refine step _ _ _ _ _ (.mark (by rw [ht]; rfl) fun v hv => ?_) ih
    rwa [← Lexeme.word.inj (ht.symm.trans hv)]
  | case10 h t rest w ht use hu ih =>
    obtain ⟨l, p⟩ := t
    obtain ⟨site, left⟩ := use
    obtain rfl := ht
    cases left with
    | none => exact stop h w p rest site hu
    | some after => exact step _ _ _ _ _ (.use hu) (ih after rfl)

/-- Whether a scan comes to the end of the tokens: no comment or string is open, and no use. -/
def reachesEnd (h : History) : List Token → Bool
  | [] => true
  | t :: rest =>
    match t.lexeme with
    | .blank _ | .comment _ => reachesEnd h rest
    | .openComment _ | .openString _ => false
    | .quoted _ _ | .bracketed _ _ => reachesEnd (h.push .string) rest
    | .symbol u => reachesEnd (h.push (.symbol u)) rest
    | .word w =>
      match _hu : use? h w t.position rest with
      | none => reachesEnd (h.push (.word w)) rest
      | some use =>
        match _hr : use.rest with
        | none => false
        | some after => reachesEnd (h.push (markOf w use)) after
termination_by ts => ts.length
decreasing_by
  all_goals simp only [List.length_cons]
  any_goals omega
  have := length_use? _hu _hr
  omega

/-- The scan of a text comes to the end of it. -/
def RunsToEnd (t : Text) : Prop := reachesEnd .empty (tokens t) = true

instance (t : Text) : Decidable (RunsToEnd t) := inferInstanceAs (Decidable (_ = true))

theorem reachesEnd_step (hs : Step h ts sites h' ts') : reachesEnd h ts = reachesEnd h' ts' := by
  cases hs with
  | @gap t _ ht =>
    obtain ⟨l, p⟩ := t
    rw [reachesEnd]
    cases l <;> first | rfl | cases ht
  | @mark t _ m hm hword =>
    obtain ⟨l, p⟩ := t
    cases l with
    | word w =>
      obtain rfl := Option.some.inj hm
      rw [reachesEnd]
      simp only
      split
      · rfl
      · rename_i hu
        rw [hword w rfl] at hu
        cases hu
    | quoted q body =>
      obtain rfl := Option.some.inj hm
      rw [reachesEnd]
    | bracketed level body =>
      obtain rfl := Option.some.inj hm
      rw [reachesEnd]
    | symbol u =>
      obtain rfl := Option.some.inj hm
      rw [reachesEnd]
    | _ => cases hm
  | use hu =>
    rw [reachesEnd]
    simp only
    split
    · rename_i hu'
      rw [hu] at hu'
      cases hu'
    · rename_i hu'
      rw [hu] at hu'
      obtain rfl := Option.some.inj hu'
      rfl

theorem not_reachesEnd_open {t : Token} (ht : t.lexeme.isOpen = true) :
    reachesEnd h (t :: ts) ≠ true := by
  obtain ⟨l, p⟩ := t
  rw [reachesEnd]
  cases l <;> first | exact Bool.false_ne_true | cases ht

theorem not_reachesEnd_stop {w : Text} {p : Position} {site : Option RequireSite}
    (hu : use? h w p ts = some ⟨site, none⟩) : reachesEnd h (⟨.word w, p⟩ :: ts) ≠ true := by
  rw [reachesEnd]
  simp only
  split
  · rename_i hu'
    rw [hu] at hu'
    cases hu'
  · rename_i hu'
    rw [hu] at hu'
    obtain rfl := Option.some.inj hu'
    exact Bool.false_ne_true

/-- A scan comes to the end where steps lead to it. -/
theorem reachesEnd_iff : reachesEnd h ts = true ↔ ∃ sites h', Steps h ts sites h' [] := by
  constructor
  · intro hends
    induction h, ts using scan_induction with
    | done => exact ⟨_, _, .refl⟩
    | opened h t ts ht => exact absurd hends (not_reachesEnd_open ht)
    | stop h w p ts site hu => exact absurd hends (not_reachesEnd_stop hu)
    | step h ts found h₁ ts₁ hstep ih =>
      obtain ⟨sites, h', hs⟩ := ih (reachesEnd_step hstep ▸ hends)
      exact ⟨_, h', .step hstep hs⟩
  · rintro ⟨sites, h', hs⟩
    generalize hnil : ([] : List Token) = us at hs
    induction hs with
    | refl => rw [← hnil, reachesEnd]
    | step hstep _ ih => rw [reachesEnd_step hstep, ih hnil]

theorem isOpen_of_mark? {l : Lexeme} {m : Mark} (h : mark? l = some m) : l.isOpen = false := by
  cases l <;> first | rfl | cases h

theorem sublist_made {site : RequireSite} {positions : List Position}
    (hsite : site.position ∈ positions) : ((made h site).map (·.position)).Sublist positions := by
  rw [made]
  split
  · exact List.nil_sublist _
  · exact List.singleton_sublist.mpr hsite

/-- The tokens that a step takes; the sites stand at them. -/
theorem Step.split (hs : Step h ts sites h' ts') :
    ∃ taken, ts = taken ++ ts' ∧ AllClosed taken ∧
      (sites.map (·.position)).Sublist (taken.map (·.position)) := by
  cases hs with
  | @gap t _ ht =>
    exact ⟨[t], rfl, Token.IsGap.allClosed (by simpa [Token.IsGap] using ht), by simp⟩
  | @mark t _ m hm _ =>
    exact ⟨[t], rfl, by simpa [AllClosed] using isOpen_of_mark? hm, by simp⟩
  | @use w p ts _ site hu =>
    obtain ⟨taken, rfl, hclosed⟩ : ∃ taken, ts = taken ++ ts' ∧ AllClosed taken := by
      rcases takes_use? hu with ⟨_, rfl⟩ | ⟨taken, x, rfl, hclosed, hx⟩
      · exact ⟨[], rfl, by simp [AllClosed]⟩
      · refine ⟨taken ++ [x], by simp, hclosed.append ?_⟩
        simpa [AllClosed] using Lexeme.isOpen_of_endsCall hx
    refine ⟨⟨.word w, p⟩ :: taken, rfl, List.forall_mem_cons.mpr ⟨rfl, hclosed⟩, ?_⟩
    cases site with
    | none => simp
    | some site =>
      obtain ⟨front, back, hsplit, hafter⟩ := exists_name_of_use? hu
      obtain ⟨back, rfl⟩ := hafter ts' rfl
      have htaken : ⟨.word w, p⟩ :: taken = front ++ ⟨.word "require", site.position⟩ :: back :=
        List.append_cancel_right (by simpa using hsplit)
      rw [htaken]
      exact sublist_made (by simp)

theorem Steps.split (hs : Steps h ts sites h' ts') :
    ∃ taken, ts = taken ++ ts' ∧ AllClosed taken ∧
      (sites.map (·.position)).Sublist (taken.map (·.position)) := by
  induction hs with
  | refl => exact ⟨[], rfl, by simp [AllClosed], by simp⟩
  | step hstep _ ih =>
    obtain ⟨first, rfl, hfirst, hsites⟩ := hstep.split
    obtain ⟨taken, rfl, htaken, hrest⟩ := ih
    refine ⟨first ++ taken, (List.append_assoc _ _ _).symm, hfirst.append htaken, ?_⟩
    rw [List.map_append, List.map_append]
    exact hsites.append hrest

/-- The sites of a scan stand at its tokens, in their order. -/
theorem sublist_scanTokens (h : History) (ts : List Token) :
    ((scanTokens h ts).map (·.position)).Sublist (ts.map (·.position)) := by
  induction h, ts using scan_induction with
  | done => simp [scanTokens]
  | opened h t ts ht =>
    rw [scanTokens_open ht]
    exact List.nil_sublist _
  | stop h w p ts site hu =>
    rw [scanTokens_stop hu]
    cases site with
    | none => exact List.nil_sublist _
    | some site =>
      obtain ⟨front, back, hsplit, _⟩ := exists_name_of_use? hu
      rw [hsplit]
      exact sublist_made (by simp)
  | step h ts sites h' ts' hstep ih =>
    obtain ⟨taken, rfl, _, hsites⟩ := hstep.split
    rw [hstep.scanTokens_eq, List.map_append, List.map_append]
    exact hsites.append ih

/-- The sites of a scan that comes to a use: those before, the one of the use, and later ones. -/
theorem exists_scan_eq {t w : Text} {p : Position} {site : RequireSite}
    {rest : Option (List Token)} (hs : Steps .empty (tokens t) sites h (⟨.word w, p⟩ :: ts))
    (hu : use? h w p ts = some ⟨some site, rest⟩) :
    ∃ later, scan t = sites ++ (made h site ++ later) ∧
      ∀ s ∈ sites ++ later, s.position ≠ site.position := by
  obtain ⟨front, back, hsplit, hafter⟩ := exists_name_of_use? hu
  obtain ⟨taken, htokens, _, hsites⟩ := hs.split
  have hnodup := nodup_tokens t
  rw [htokens, hsplit, List.map_append, List.map_append, List.map_cons] at hnodup
  obtain ⟨later, hscan, hlater⟩ : ∃ later, scan t = sites ++ (made h site ++ later) ∧
      ∀ s ∈ later, s.position ∈ back.map (·.position) := by
    rw [scan, hs.scanTokens_eq]
    cases rest with
    | none => exact ⟨[], by rw [scanTokens_stop hu, List.append_nil]; rfl, by simp⟩
    | some after =>
      refine ⟨_, by rw [(Step.use hu).scanTokens_eq]; rfl, fun s hs => ?_⟩
      have hmem := (sublist_scanTokens _ _).subset (List.mem_map_of_mem hs)
      exact (List.map_subset _ (hafter after rfl).subset) hmem
  refine ⟨later, hscan, fun s hs hposition => ?_⟩
  obtain ⟨_, hrest, hdisjoint⟩ := List.nodup_append.mp hnodup
  rcases List.mem_append.mp hs with hs | hs
  · have htaken := hsites.subset (List.mem_map_of_mem hs)
    exact hdisjoint _ htaken site.position (by simp) hposition
  · have hback := hlater s hs
    rw [hposition] at hback
    exact (List.nodup_cons.mp (List.nodup_append.mp hrest).2.1).1 hback

/-- A use that a scan comes to has its site, or it is dropped and no site stands there. -/
theorem mem_scan_iff {t w : Text} {p : Position} {site : RequireSite}
    {rest : Option (List Token)} (hs : Steps .empty (tokens t) sites h (⟨.word w, p⟩ :: ts))
    (hu : use? h w p ts = some ⟨some site, rest⟩) :
    (site ∈ scan t ↔ keepsName h site = false) ∧
      ((∀ s ∈ scan t, s.position ≠ site.position) ↔ keepsName h site = true) := by
  obtain ⟨later, hscan, hne⟩ := exists_scan_eq hs hu
  rw [hscan]
  simp only [List.mem_append] at hne ⊢
  cases hkeeps : keepsName h site with
  | true =>
    have hmade : made h site = [] := by simp [made, hkeeps]
    have hall : ∀ s, s ∈ sites ∨ s ∈ made h site ∨ s ∈ later → s.position ≠ site.position := by
      simpa [hmade] using hne
    exact ⟨by simpa using fun hsite => hall site hsite rfl, by simpa using hall⟩
  | false =>
    have hmade : site ∈ made h site := mem_made.mpr ⟨hkeeps, rfl⟩
    refine ⟨by simp [hmade], ?_⟩
    simpa using ⟨site, .inr (.inl hmade), rfl⟩

end RequireSite

end LuaBundle
