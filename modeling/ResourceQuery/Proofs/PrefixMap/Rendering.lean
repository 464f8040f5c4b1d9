import ResourceQuery.Proofs.Clause.Rendering
import ResourceQuery.Proofs.PrefixMap.Acceptance

/-!
# Reading rendered prefix maps

A map is rendered as the definitions of its pairs, each in its place. A prefix ends before the
equals sign, and the reference after that holds no angle bracket, so each definition is split into
its own tokens again, whichever signs its namespace holds. What these bind is the map itself, since
its prefixes are distinct. A parsed map holds only pairs that can be written.
-/

namespace ResourceQuery.PrefixMap

set_option autoImplicit false

open Reading Lexer
open Definition (clause)
open Term (Spells spells_token)

variable {m : PrefixMap} {p : String × String} {pairs : List (String × String)} {text : String}

/-- The prefix is a word, which may be reserved, and the namespace is a reference. -/
structure Definable (p : String × String) : Prop where
  word : Token.IsWord p.1.toList
  reference : Token.IsReference p.2.toList

theorem definable_iff :
    Definable p ↔ Token.IsWord p.1.toList ∧ Token.IsReference p.2.toList :=
  ⟨fun h => ⟨h.word, h.reference⟩, fun h => ⟨h.1, h.2⟩⟩

instance : DecidablePred Definable := fun _ => decidable_of_iff _ definable_iff.symm

def Writable (m : PrefixMap) : Prop := ∀ p ∈ m.pairs, Definable p

def DeclaredName.ofWord (word : String) : DeclaredName :=
  if h : word ∈ Token.reserved then .reserved word h else .name word

theorem DeclaredName.token_ofWord (word : String) : (ofWord word).token = Token.ofWord word := by
  unfold ofWord
  split
  · rfl
  · next h => exact (Token.ofWord_of_notMem_reserved h).symm

theorem DeclaredName.word_ofWord (word : String) : (ofWord word).word = word := by
  unfold ofWord
  split <;> rfl

def Definition.ofPair (p : String × String) : Definition := ⟨.ofWord p.1, p.2⟩

theorem Definition.pair_ofPair (p : String × String) : (ofPair p).pair = p :=
  Prod.ext (DeclaredName.word_ofWord p.1) rfl

theorem map_pair_ofPair (pairs : List (String × String)) :
    (pairs.map Definition.ofPair).map Definition.pair = pairs := by
  rw [List.map_map]
  exact List.map_id'' Definition.pair_ofPair pairs

def pairText (p : String × String) : String := p.1 ++ "=<" ++ p.2 ++ ">"

/-- A word is read as one token before the equals sign, also if it is reserved. -/
theorem spells_word {word : String} (h : Token.IsWord word.toList) :
    Spells ['='] word [Token.ofWord word] := by
  intro rest ts hrest hts
  have htext : (Token.ofWord word).text = word := Token.text_ofWord word
  have hreads : Reads (Token.ofWord word) rest :=
    reads_of_isWord (by rwa [htext]) (by rw [htext]) (hrest.stops (by decide))
  have hall := hts.cons hreads
  rwa [htext] at hall

theorem spells_pair (h : Definable p) :
    Spells delimiters (pairText p) (Definition.ofPair p).tokens := by
  obtain ⟨word, space⟩ := p
  have hspace : Spells delimiters (Token.uri space).text [.uri space] :=
    spells_token h.reference (by simp)
  have hequals := hspace.cons (t := .comparison .eq) trivial fun _ => trivial
  have hhead : ((Token.comparison .eq).text ++ (Token.uri space).text).toList.head? = some '=' := by
    simp [Token.text, Comparison.text]
  have hall := (spells_word h.word).append hequals hhead (by decide)
  have htext : pairText (word, space) =
      word ++ ((Token.comparison .eq).text ++ (Token.uri space).text) := by
    apply String.toList_inj.mp
    simp [pairText, Token.text, Comparison.text]
  rwa [htext, Definition.tokens, Definition.ofPair, DeclaredName.token_ofWord]

theorem tokenize_text (h : m.Writable) :
    tokenize m.text = .ok (clause (m.pairs.map Definition.ofPair)) := by
  have hspell := Spells.intercalate (fun p hp => spells_pair (h p hp)) (by decide)
  rw [clause, List.map_map]
  exact tokenize_eq_ok_iff.mpr hspell.tokenizes

theorem parse_text_of_writable (h : m.Writable) : parse m.text = .ok m := by
  refine parse_eq_ok_iff.mpr ⟨m.pairs.map Definition.ofPair, tokenize_text h, ?_⟩
  rw [map_pair_ofPair, ofList_pairs]

theorem writable_ofList (h : ∀ p ∈ pairs, Definable p) : (ofList pairs).Writable := by
  intro p hp
  rcases mem_of_mem_insertAll (m := empty) hp with hp | hp
  · cases hp
  · exact h p hp

theorem Definition.definable {x : Definition} (h : ∀ t ∈ x.tokens, t.WellFormed) :
    Definable x.pair := by
  obtain ⟨n, space⟩ := x
  refine ⟨?_, h (.uri space) (by simp [Definition.tokens])⟩
  cases n with
  | name word => exact (h (.name word) List.mem_cons_self).1
  | reserved word hword => exact Token.isWord_of_mem_reserved hword

theorem Definition.mem_clause {x : Definition} {xs : List Definition} {t : Token} (hx : x ∈ xs)
    (ht : t ∈ x.tokens) : t ∈ clause xs := by
  cases xs with
  | nil => cases hx
  | cons y ys =>
    rw [clause_cons]
    rcases List.mem_cons.mp hx with rfl | hx
    · exact List.mem_append_left _ ht
    · exact List.mem_append_right _ (List.mem_flatMap.mpr ⟨x, hx, List.mem_cons_of_mem _ ht⟩)

theorem exists_definable_of_parse (h : parse text = .ok m) :
    ∃ pairs, (∀ p ∈ pairs, Definable p) ∧ m = ofList pairs := by
  obtain ⟨xs, hxs, hm⟩ := parse_eq_ok_iff.mp h
  refine ⟨xs.map Definition.pair, ?_, hm⟩
  have hwell := (tokenize_eq_ok_iff.mp hxs).wellFormed
  intro p hp
  obtain ⟨x, hx, rfl⟩ := List.mem_map.mp hp
  exact x.definable fun t ht => hwell t (Definition.mem_clause hx ht)

theorem readsBack : Clause.ReadsBack parse PrefixMap.text Writable where
  writable_of_parse := by
    intro text m h
    obtain ⟨pairs, hpairs, rfl⟩ := exists_definable_of_parse h
    exact writable_ofList hpairs
  parse_render _ h := parse_text_of_writable h

/-- A map that comes of binding pairs that can be written is read back from its text as it was,
and every map that is read comes of such pairs. So the text of a map that was read is read as that
map. -/
theorem rendering_reads_back :
    (∀ pairs, (∀ p ∈ pairs, Definable p) → parse (ofList pairs).text = .ok (ofList pairs)) ∧
    ∀ text m, parse text = .ok m →
      (∃ pairs, (∀ p ∈ pairs, Definable p) ∧ m = ofList pairs) ∧ parse m.text = .ok m := by
  constructor
  · intro pairs h
    exact parse_text_of_writable (writable_ofList h)
  · intro text m h
    have hwritable := readsBack.writable_of_parse text m h
    exact ⟨exists_definable_of_parse h, readsBack.parse_render m hwritable⟩

/-- A reserved word that is bound again later, to a namespace with a comma and an equals sign. -/
theorem rendering_reads_back_redeclared :
    (∀ p ∈ [("in", "http://x/"), ("a.b-c", "u"), ("in", "http://y/a,b=c")], Definable p) ∧
    parse "in=<http://y/a,b=c>,a.b-c=<u>" =
      .ok (ofList [("in", "http://x/"), ("a.b-c", "u"), ("in", "http://y/a,b=c")]) := by
  have hpairs : ∀ p ∈ [("in", "http://x/"), ("a.b-c", "u"), ("in", "http://y/a,b=c")],
      Definable p := by
    decide +kernel
  exact ⟨hpairs, rendering_reads_back.1 _ hpairs⟩

end ResourceQuery.PrefixMap
