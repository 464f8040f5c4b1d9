import ResourceQuery.Proofs.Lexer.LongestMatch
import ResourceQuery.Proofs.Lexer.Tokenization

/-!
# Where the tokens of a text stand

A `Span` is a token with the place where it begins and the place where reading goes on after it.
The spans of a text follow from the one fact that each token is what reading at its place gives:
they are not empty and do not overlap, the text between their ends is the spelling of the token,
no longer token begins at the same place, and all that lies outside of them is blank.
-/

namespace ResourceQuery

set_option autoImplicit false

open Reading

structure Span where
  token : Token
  start : Nat
  stop : Nat
  deriving DecidableEq, Repr

variable {s : Span} {t u : Token} {ts : List Token} {text : List Char} {i : Nat}

namespace Span

/-- The token is what reading at its place gives. -/
def Stands (text : List Char) (s : Span) : Prop :=
  ∃ c rest n, text.drop s.start = c :: rest ∧ ofChars c rest = .token s.token n ∧
    s.stop = s.start + n

theorem Stands.start_lt (h : s.Stands text) : s.start < s.stop := by
  obtain ⟨c, rest, n, _, hread, hstop⟩ := h
  have := ofChars_length_pos hread
  omega

theorem Stands.stop_le (h : s.Stands text) : s.stop ≤ text.length := by
  obtain ⟨c, rest, n, hdrop, hread, hstop⟩ := h
  obtain ⟨hfront, hlength⟩ := spelled_of_ofChars hread
  have hle := hfront.length_le
  have hrest := congrArg List.length hdrop
  rw [List.length_drop] at hrest
  have hcons : (c :: rest).length = rest.length + 1 := rfl
  omega

theorem Stands.slice_eq (h : s.Stands text) :
    (text.take s.stop).drop s.start = s.token.text.toList := by
  obtain ⟨c, rest, n, hdrop, hread, hstop⟩ := h
  obtain ⟨hfront, hlength⟩ := spelled_of_ofChars hread
  have hn : s.stop - s.start = s.token.text.toList.length := by omega
  rw [List.drop_take, hdrop, hn]
  exact (List.prefix_iff_eq_take.mp hfront).symm

theorem Stands.wellFormed (h : s.Stands text) : s.token.WellFormed := by
  obtain ⟨c, rest, n, _, hread, _⟩ := h
  exact wellFormed_of_ofChars hread

theorem Stands.length_le (h : s.Stands text) (hu : u.WellFormed)
    (hfront : u.text.toList <+: text.drop s.start) :
    u.text.toList.length ≤ s.stop - s.start := by
  obtain ⟨c, rest, n, hdrop, hread, hstop⟩ := h
  rw [hdrop] at hfront
  have := length_le_of_ofChars hu hfront hread
  omega

/-- What follows an opening angle bracket at the place of a token. -/
theorem Stands.of_angle (h : s.Stands text) (hangle : text[s.start]? = some '<') :
    ∃ n, ofChars '<' (text.drop (s.start + 1)) = .token s.token n := by
  obtain ⟨c, rest, n, hdrop, hread, _⟩ := h
  have hc : text[s.start]? = some c := by
    have hhead : (text.drop s.start)[0]? = text[s.start]? := List.getElem?_drop
    rw [hdrop] at hhead
    exact hhead.symm
  have hrest : text.drop (s.start + 1) = rest := by
    rw [← List.tail_drop, hdrop, List.tail_cons]
  rw [hangle] at hc
  cases hc
  exact ⟨n, hrest ▸ hread⟩

end Span

namespace Lexer

variable {l l' : Lexer} {e : LexError}

/-- Where the next token begins: behind the blanks ahead. -/
def nextStart (l : Lexer) : Nat := l.position + (l.ahead.takeWhile Text.isBlank).length

theorem position_le_nextStart : l.position ≤ l.nextStart := Nat.le_add_right _ _

theorem nextStart_le (h : l.position ≤ l.text.length) : l.nextStart ≤ l.text.length := by
  have hle := (List.takeWhile_prefix (p := Text.isBlank) (l := l.ahead)).length_le
  rw [ahead, List.length_drop] at hle
  unfold nextStart ahead
  omega

theorem drop_nextStart : l.text.drop l.nextStart = l.ahead.dropWhile Text.isBlank := by
  rw [nextStart, ← List.drop_drop]
  exact drop_takeWhile _ _

theorem isBlank_of_lt_nextStart (hi : i < l.text.length) (hle : l.position ≤ i)
    (hlt : i < l.nextStart) : Text.isBlank l.text[i] = true := by
  have hpos : i - l.position < (l.ahead.takeWhile Text.isBlank).length := by
    unfold nextStart at hlt
    omega
  have hget : (l.ahead.takeWhile Text.isBlank)[i - l.position] = l.text[i] := by
    have hfront := List.takeWhile_prefix (p := Text.isBlank) (l := l.ahead)
    rw [hfront.getElem hpos]
    simp only [ahead, List.getElem_drop]
    congr 1
    omega
  rw [← hget]
  exact List.mem_takeWhile_imp (List.getElem_mem hpos)

theorem place_of_next_none (h : l.next = (.ok none, l')) :
    l.text.drop l.nextStart = [] ∧ l' = ⟨l.text, l.nextStart, l.nextStart⟩ := by
  refine ⟨drop_nextStart.trans (of_next_none h), ?_⟩
  unfold next at h
  simp only at h
  split at h
  · cases h
    rfl
  · split at h <;> cases h

theorem place_of_next_some (h : l.next = (.ok (some t), l')) :
    l'.text = l.text ∧ l'.tokenStart = l.nextStart ∧
      Span.Stands l.text ⟨t, l'.tokenStart, l'.position⟩ := by
  unfold next at h
  simp only at h
  split at h
  · cases h
  · rename_i c rest hskip
    split at h
    · rename_i n hread
      cases h
      exact ⟨rfl, rfl, c, rest, n, drop_nextStart.trans hskip, hread, rfl⟩
    · cases h

/-- The tokens up to the end of the text, or up to the first fault, with their places. -/
def spans (l : Lexer) : List Span :=
  match _h : l.next with
  | (.ok (some t), l') => ⟨t, l'.tokenStart, l'.position⟩ :: spans l'
  | _ => []
termination_by l.remaining
decreasing_by exact remaining_lt_of_next _h

theorem spans_of_next_some (h : l.next = (.ok (some t), l')) :
    l.spans = ⟨t, l'.tokenStart, l'.position⟩ :: l'.spans := by
  rw [spans]
  split <;> simp_all

theorem spans_of_next_none (h : l.next = (.ok none, l')) : l.spans = [] := by
  rw [spans]
  split <;> simp_all

theorem spans_of_next_error (h : l.next = (.error e, l')) : l.spans = [] := by
  rw [spans]
  split <;> simp_all

theorem map_token_spans (h : l.tokenize.1 = .ok ts) : l.spans.map Span.token = ts := by
  induction l using tokenize.induct generalizing ts with
  | case1 l e l' hnext =>
    rw [tokenize_of_next_error hnext] at h
    cases h
  | case2 l l' hnext =>
    rw [tokenize_of_next_none hnext] at h
    cases h
    rw [spans_of_next_none hnext]
    rfl
  | case3 l t l' hnext ih =>
    obtain ⟨us, rfl, hus⟩ := (tokenize_of_next_some hnext).mp h
    rw [spans_of_next_some hnext, List.map_cons, ih hus]

theorem stands_of_mem_spans (h : s ∈ l.spans) : s.Stands l.text := by
  induction l using tokenize.induct with
  | case1 l e l' hnext =>
    rw [spans_of_next_error hnext] at h
    cases h
  | case2 l l' hnext =>
    rw [spans_of_next_none hnext] at h
    cases h
  | case3 l t l' hnext ih =>
    obtain ⟨htext, _, hstands⟩ := place_of_next_some hnext
    rw [spans_of_next_some hnext] at h
    rcases List.mem_cons.mp h with rfl | h
    · exact hstands
    · exact htext ▸ ih h

theorem position_le_of_mem_spans (h : s ∈ l.spans) : l.position ≤ s.start := by
  induction l using tokenize.induct with
  | case1 l e l' hnext =>
    rw [spans_of_next_error hnext] at h
    cases h
  | case2 l l' hnext =>
    rw [spans_of_next_none hnext] at h
    cases h
  | case3 l t l' hnext ih =>
    obtain ⟨_, hstart, hstands⟩ := place_of_next_some hnext
    have hle : l.position ≤ l'.tokenStart := hstart ▸ position_le_nextStart
    have hlt : l'.tokenStart < l'.position := hstands.start_lt
    rw [spans_of_next_some hnext] at h
    rcases List.mem_cons.mp h with rfl | h
    · exact hle
    · have := ih h
      omega

theorem pairwise_spans : l.spans.Pairwise fun s s' => s.stop ≤ s'.start := by
  induction l using tokenize.induct with
  | case1 l e l' hnext =>
    rw [spans_of_next_error hnext]
    exact .nil
  | case2 l l' hnext =>
    rw [spans_of_next_none hnext]
    exact .nil
  | case3 l t l' hnext ih =>
    rw [spans_of_next_some hnext]
    exact List.pairwise_cons.mpr ⟨fun _ => position_le_of_mem_spans, ih⟩

theorem isBlank_of_outside (h : l.tokenize.1 = .ok ts) (hi : i < l.text.length)
    (hle : l.position ≤ i) (houtside : ∀ s ∈ l.spans, i < s.start ∨ s.stop ≤ i) :
    Text.isBlank l.text[i] = true := by
  induction l using tokenize.induct generalizing ts with
  | case1 l e l' hnext =>
    rw [tokenize_of_next_error hnext] at h
    cases h
  | case2 l l' hnext =>
    have hend := List.drop_eq_nil_iff.mp (place_of_next_none hnext).1
    exact isBlank_of_lt_nextStart hi hle (by omega)
  | case3 l t l' hnext ih =>
    obtain ⟨us, rfl, hus⟩ := (tokenize_of_next_some hnext).mp h
    obtain ⟨htext, hstart, _⟩ := place_of_next_some hnext
    rw [spans_of_next_some hnext] at houtside
    obtain ⟨hfirst, hlater⟩ := List.forall_mem_cons.mp houtside
    rcases hfirst with hbefore | hbehind
    · exact isBlank_of_lt_nextStart hi hle (hstart ▸ hbefore)
    · have hblank := ih hus (by rw [htext]; exact hi) hbehind hlater
      simpa only [htext] using hblank

end Lexer

/-- The span is the spelling of its token, and no longer token is spelled at its place. -/
structure Span.IsLongest (text : String) (s : Span) : Prop where
  wellFormed : s.token.WellFormed
  spelled : (Lexer.ofString text).slice s.start s.stop = s.token.text
  longest : ∀ u : Token, u.WellFormed → u.text.toList <+: text.toList.drop s.start →
    u.text.toList.length ≤ s.stop - s.start

/-- The spans part a text into tokens and blanks. -/
structure Segments (text : String) (spans : List Span) : Prop where
  nonempty : ∀ s ∈ spans, s.start < s.stop ∧ s.stop ≤ text.length
  ascending : spans.Pairwise fun s s' => s.stop ≤ s'.start
  blank : ∀ i (hi : i < text.toList.length), (∀ s ∈ spans, i < s.start ∨ s.stop ≤ i) →
    Text.isBlank text.toList[i] = true
  longest : ∀ s ∈ spans, s.IsLongest text

/-- At a place where a token begins with an angle bracket, a URI reference is read if one is
spelled out there, and a comparison if none is. -/
def Span.SettlesAngle (text : String) (s : Span) : Prop :=
  text.toList[s.start]? = some '<' →
    (∀ reference, Token.IsReference reference →
      reference ++ ['>'] <+: text.toList.drop (s.start + 1) →
        s.token = .uri (String.ofList reference)) ∧
    ((∀ reference, Token.IsReference reference →
      ¬ reference ++ ['>'] <+: text.toList.drop (s.start + 1)) →
        s.token = .comparison .lt ∨ s.token = .comparison .le)

theorem Span.Stands.isLongest {text : String} (h : s.Stands text.toList) : s.IsLongest text where
  wellFormed := h.wellFormed
  spelled := (congrArg String.ofList h.slice_eq).trans String.ofList_toList
  longest := fun _ hu hfront => h.length_le hu hfront

theorem Span.Stands.settlesAngle {text : String} (h : s.Stands text.toList) :
    s.SettlesAngle text := by
  intro hangle
  obtain ⟨n, hread⟩ := h.of_angle hangle
  refine ⟨?_, ?_⟩
  · intro reference href hfront
    exact ofLess_of_isReference href hfront hread
  · intro hnone
    exact comparison_of_ofLess hnone hread

/-- Tokens are cut out of a text at their longest, and what lies between them is blank. -/
theorem tokenize_segments {text : String} {ts : List Token} (h : tokenize text = .ok ts) :
    (Lexer.ofString text).spans.map Span.token = ts ∧
    Segments text (Lexer.ofString text).spans ∧
    ∀ s ∈ (Lexer.ofString text).spans, s.SettlesAngle text := by
  have hstands : ∀ s ∈ (Lexer.ofString text).spans, s.Stands text.toList :=
    fun s hs => Lexer.stands_of_mem_spans hs
  refine ⟨Lexer.map_token_spans h, ?_, fun s hs => (hstands s hs).settlesAngle⟩
  refine ⟨?_, Lexer.pairwise_spans, ?_, fun s hs => (hstands s hs).isLongest⟩
  · intro s hs
    rw [← String.length_toList]
    exact ⟨(hstands s hs).start_lt, (hstands s hs).stop_le⟩
  · intro i hi houtside
    exact Lexer.isBlank_of_outside h hi (Nat.zero_le i) houtside

theorem tokenize_segments_angle :
    let text := " in:x.y<-0.5 <a,b>"
    (Lexer.ofString text).spans.map Span.token =
      [.prefixed "in" "x.y", .comparison .lt, .mark .minus, .number "0.5", .uri "a,b"] ∧
    Segments text (Lexer.ofString text).spans ∧
    ∀ s ∈ (Lexer.ofString text).spans, s.SettlesAngle text := by
  intro text
  have h : tokenize text =
      .ok [.prefixed "in" "x.y", .comparison .lt, .mark .minus, .number "0.5", .uri "a,b"] := by
    decide +kernel
  exact tokenize_segments h

end ResourceQuery
