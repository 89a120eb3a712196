import Calculator.Proofs.Token.Pieces

/-!
# Places in a text

Every token but the end comes from a piece of the text. So it stands on a line that the text has, and a
name consists of letters.
-/

namespace Calculator

variable {before text : List Char} {p : Piece} {ps done rest : List Piece} {t : Lexeme} {s : String}

theorem one_le_lineAfter : 1 ≤ lineAfter text := Nat.le_add_right ..

theorem mem_lexemesAfter (h : t ∈ lexemesAfter before ps) :
    t = ⟨.mark .finish, lineAfter (before ++ ps.flatMap Piece.text)⟩ ∨
    ∃ done p rest, ps = done ++ p :: rest ∧ p.token? = some t.value ∧
      t.line = lineAfter (before ++ done.flatMap Piece.text) := by
  induction ps generalizing before
  case nil => simpa [lexemesAfter] using h
  case cons p ps hi =>
    rw [lexemesAfter, List.mem_append] at h
    cases h
    case inl h =>
      obtain ⟨v, hv, rfl⟩ := Option.map_eq_some_iff.mp (Option.mem_toList.mp h)
      exact .inr ⟨[], p, ps, rfl, hv, by simp⟩
    case inr h =>
      cases hi h
      case inl h => exact .inl (by simpa using h)
      case inr h =>
        obtain ⟨done, q, rest, hs, hv, hl⟩ := h
        exact .inr ⟨p :: done, q, rest, by simp [hs], hv, by simpa using hl⟩

namespace Pieces

theorem fits_of_mem (h : Pieces text ps) (hp : p ∈ ps) : ∃ rest, p.Fits rest := by
  induction h
  case nil => exact absurd hp List.not_mem_nil
  case cons hf _ hi =>
    cases List.mem_cons.mp hp
    case inl hp => exact ⟨_, hp ▸ hf⟩
    case inr hp => exact hi hp

theorem line_le (h : Pieces text (done ++ rest)) :
    lineAfter (done.flatMap Piece.text) ≤ lineAfter text := by
  rw [← h.flatMap_text, List.flatMap_append, lineAfter_append]
  exact Nat.le_add_right ..

theorem line_of_mem (h : Pieces text ps) (ht : t ∈ lexemesAfter [] ps) :
    1 ≤ t.line ∧ t.line ≤ lineAfter text := by
  cases mem_lexemesAfter ht
  case inl ht =>
    subst ht
    rw [List.nil_append, h.flatMap_text]
    exact ⟨one_le_lineAfter, Nat.le_refl _⟩
  case inr ht =>
    have ⟨done, p, rest, hs, _, hl⟩ := ht
    subst hs
    rw [hl, List.nil_append]
    exact ⟨one_le_lineAfter, h.line_le⟩

theorem finish_line (h : Pieces text ps) (ht : t ∈ lexemesAfter [] ps)
    (hv : t.value = .mark .finish) : t.line = lineAfter text := by
  cases mem_lexemesAfter ht
  case inl ht =>
    subst ht
    rw [List.nil_append, h.flatMap_text]
  case inr ht =>
    have ⟨_, p, _, hs, hp, _⟩ := ht
    have ⟨_, hf⟩ := h.fits_of_mem (p := p) (by simp [hs])
    exact absurd hv (hf.token?_ne hp).left

end Pieces

theorem Piece.Fits.letters {rest : List Char} (h : p.Fits rest) (hp : p.token? = some (.name s)) :
    s.toList ≠ [] ∧ ∀ c ∈ s.toList, Letter c := by
  cases h
  case name hl hr =>
    cases hp
    simpa using ⟨hl, hr.all⟩
  all_goals cases hp

theorem Pieces.letters_of_mem (h : Pieces text ps) (ht : t ∈ lexemesAfter before ps)
    (hv : t.value = .name s) : s.toList ≠ [] ∧ ∀ c ∈ s.toList, Letter c := by
  cases mem_lexemesAfter ht
  case inl ht => rw [ht] at hv; cases hv
  case inr ht =>
    have ⟨_, p, _, hs, hp, _⟩ := ht
    have ⟨_, hf⟩ := h.fits_of_mem (p := p) (by simp [hs])
    exact hf.letters (hv ▸ hp)

section

variable {source : String} {ts : List Lexeme}

theorem pieces_of_scan (h : scan source = .ok ts) :
    ∃ ps, Pieces source.toList ps ∧ ts = lexemesAfter [] ps := by
  have ⟨ps, hp⟩ := Pieces.exist source.toList
  exact ⟨ps, hp, (hp.ok_of_scan h).right⟩

theorem finish_of_scan (h : scan source = .ok ts) :
    ∃ us, ts = us ++ [⟨.mark .finish, lineAfter source.toList⟩] ∧
      ∀ t ∈ us, t.value ≠ .mark .finish := by
  obtain ⟨ps, hp, rfl⟩ := pieces_of_scan h
  have ⟨us, hu, hn⟩ := hp.lexemesAfter_finish []
  exact ⟨us, hu, fun t ht => (hn t ht).left⟩

theorem line_of_scan (h : scan source = .ok ts) (ht : t ∈ ts) :
    1 ≤ t.line ∧ t.line ≤ lineAfter source.toList := by
  obtain ⟨ps, hp, rfl⟩ := pieces_of_scan h
  exact hp.line_of_mem ht

theorem finish_line_of_scan (h : scan source = .ok ts) (ht : t ∈ ts) (hv : t.value = .mark .finish) :
    t.line = lineAfter source.toList := by
  obtain ⟨ps, hp, rfl⟩ := pieces_of_scan h
  exact hp.finish_line ht hv

theorem letters_of_scan (h : scan source = .ok ts) (ht : t ∈ ts) (hv : t.value = .name s) :
    s.toList ≠ [] ∧ ∀ c ∈ s.toList, Letter c := by
  obtain ⟨ps, hp, rfl⟩ := pieces_of_scan h
  exact hp.letters_of_mem ht hv

theorem finite_of_scan {x : Number} (h : scan source = .ok ts) (ht : t ∈ ts) (hv : t.value = .number x) :
    x.isFinite = true := by
  have ⟨ps, hp⟩ := Pieces.exist source.toList
  obtain ⟨hf, rfl⟩ := hp.ok_of_scan h
  cases mem_lexemesAfter ht
  case inl ht => rw [ht] at hv; cases hv
  case inr ht =>
    have ⟨_, p, _, hs, hq, _⟩ := ht
    have ho := hf p (by simp [hs])
    rw [hv] at hq
    cases p
    case number => cases hq; simpa [Piece.overflows] using ho
    all_goals cases hq

end

end Calculator
