import ResourceQuery.Proofs.Basics
import ResourceQuery.Proofs.Json.SelfDelimiting

/-!
# JSON texts are unambiguous

The text of a JSON value, with whatever comes behind it, is that of no other value. This holds of
the compact and of the indented text: they differ only in the blanks between the parts, which are
the layout of a text.
-/

namespace ResourceQuery.Json

set_option autoImplicit false

variable {α : Type} {f : α → String} {as bs : List α} {xs ys : List Char} {c d : Char}

/-- The blanks between the parts of a text, by level, and what stands between a key and a value.
Where there are blanks behind or before a bracket, they begin with a new line. -/
structure Layout where
  lead : Nat → String
  gap : Nat → String
  tail : Nat → String
  colon : String
  lead_head : ∀ level, ∀ c ∈ (lead level).toList.head?, c = '\n'
  tail_head : ∀ level, ∀ c ∈ (tail level).toList.head?, c = '\n'

theorem head?_append_mem {us vs cs : List Char} (hus : ∀ c ∈ us.head?, c = '\n')
    (hvs : ∃ c ∈ cs, vs.head? = some c) : ∃ c ∈ '\n' :: cs, (us ++ vs).head? = some c := by
  obtain ⟨c, hc, hhead⟩ := hvs
  cases us with
  | nil => exact ⟨c, List.mem_cons_of_mem _ hc, hhead⟩
  | cons u us =>
    obtain rfl := hus u rfl
    exact ⟨'\n', List.mem_cons_self, rfl⟩

/-- What the text of a value begins with. -/
def heads : List Char := ['n', 't', 'f', '"', '[', '{']

def closers : List Char := [']', '}']

theorem notMem_of_mem_closers (h : d ∈ closers) : d ∉ '\n' :: heads := by
  simp only [closers, List.mem_cons, List.not_mem_nil, or_false] at h
  rcases h with rfl | rfl <;> decide

namespace Layout

variable {L : Layout} {opening : String} {level : Nat}

/-- Parts in brackets, with the blanks of the layout; none at all stay on the line. -/
def block (L : Layout) (opening : String) (closing : Char) (level : Nat) (parts : List String) :
    String :=
  if parts.isEmpty then opening ++ closing.toString
  else
    opening ++ (L.lead level ++ (("," ++ L.gap level).intercalate parts ++
      (L.tail level ++ closing.toString)))

def member (L : Layout) (write : Json → String) (m : String × Json) : String :=
  quote m.1 ++ (L.colon ++ write m.2)

theorem toList_block_nil :
    (L.block opening d level (List.map f [])).toList = opening.toList ++ [d] := by
  simp [block]

theorem toList_block_cons {a : α} :
    (L.block opening d level ((a :: as).map f)).toList =
      opening.toList ++ ((L.lead level).toList ++ ((f a).toList ++
        (as.flatMap (fun b => ("," ++ L.gap level).toList ++ (f b).toList) ++
          ((L.tail level).toList ++ [d])))) := by
  rw [block, if_neg (by simp), String.toList_append, String.toList_append, String.toList_append,
    String.toList_append, toList_intercalate_cons, List.append_assoc]
  simp

theorem block_inj (hd : d ∈ closers) (hheads : ∀ a, ∃ c ∈ heads, (f a).toList.head? = some c)
    (hf : ∀ a ∈ as, SelfDelimiting f a)
    (h : (L.block opening d level (as.map f)).toList ++ xs =
      (L.block opening d level (bs.map f)).toList ++ ys) : as = bs ∧ xs = ys := by
  -- What closes the block begins as no part does, and not with a comma.
  have hempty : ∀ (a : α) (us vs : List Char), d :: us ≠
      (L.lead level).toList ++ ((f a).toList ++ vs) := by
    intro a us vs heq
    obtain ⟨c, hc, hhead⟩ := head?_append_mem (L.lead_head level) (hheads a)
    have hboth := congrArg List.head? heq
    rw [← List.append_assoc, List.head?_append, hhead, Option.some_or] at hboth
    cases hboth
    exact notMem_of_mem_closers hd hc
  have hclose : ∃ c ∈ closers, [d].head? = some c := ⟨d, hd, rfl⟩
  obtain ⟨c, hc, htail⟩ := head?_append_mem (L.tail_head level) hclose
  have hcomma : ',' ≠ c := by
    rintro rfl
    exact absurd hc (by decide)
  have hsep : ("," ++ L.gap level).toList.head? = some ',' := by simp
  cases as with
  | nil =>
    cases bs with
    | nil => exact ⟨rfl, List.append_cancel_left h⟩
    | cons b bs =>
      simp only [toList_block_nil, toList_block_cons, List.append_assoc] at h
      exact absurd (List.append_cancel_left h) (hempty b _ _)
  | cons a as =>
    obtain ⟨ha, has⟩ := List.forall_mem_cons.mp hf
    cases bs with
    | nil =>
      simp only [toList_block_nil, toList_block_cons, List.append_assoc] at h
      exact absurd (List.append_cancel_left h).symm (hempty a _ _)
    | cons b bs =>
      simp only [toList_block_cons, List.append_assoc] at h
      obtain ⟨rfl, hlater⟩ := ha b _ _ (List.append_cancel_left (List.append_cancel_left h))
      simp only [← List.append_assoc (L.tail level).toList] at hlater
      obtain ⟨rfl, hrest⟩ := flatMap_inj hsep htail hcomma has hlater
      exact ⟨rfl, hrest⟩

theorem head?_member {write : Json → String} (m : String × Json) :
    ∃ c ∈ heads, (L.member write m).toList.head? = some c := by
  refine ⟨'"', by decide, ?_⟩
  rw [member, String.toList_append, toList_quote]
  rfl

theorem selfDelimiting_member {write : Json → String} {m : String × Json}
    (h : SelfDelimiting write m.2) : SelfDelimiting (L.member write) m := by
  obtain ⟨key, j⟩ := m
  rintro ⟨key', k⟩ xs ys heq
  simp only [member, String.toList_append, List.append_assoc] at heq
  obtain ⟨rfl, hvalue⟩ := selfDelimiting_quote key key' _ _ heq
  obtain ⟨rfl, hrest⟩ := h k _ _ (List.append_cancel_left hvalue)
  exact ⟨rfl, hrest⟩

/-- The writer of the texts that have the layout. -/
structure Writes (L : Layout) (write : Nat → Json → String) : Prop where
  null : ∀ level, write level null = "null"
  bool : ∀ level b, write level (bool b) = if b then "true" else "false"
  string : ∀ level s, write level (string s) = quote s
  array : ∀ level items, write level (array items) =
    L.block "[" ']' level (items.map (write (level + 1)))
  object : ∀ level members, write level (object members) =
    L.block "\x7b" '}' level (members.map (L.member (write (level + 1))))

end Layout

variable {L : Layout} {write : Nat → Json → String}

/-- Two values of one shape. -/
inductive Alike : Json → Json → Prop where
  | null : Alike null null
  | bool (b : Bool) : Alike (bool b) (bool b)
  | string (s t : String) : Alike (string s) (string t)
  | array (js ks : List Json) : Alike (array js) (array ks)
  | object (ms ns : List (String × Json)) : Alike (object ms) (object ns)

def head : Json → Char
  | null => 'n'
  | bool b => if b then 't' else 'f'
  | string _ => '"'
  | array _ => '['
  | object _ => '{'

theorem head_mem_heads (j : Json) : j.head ∈ heads := by
  cases j with
  | bool b => cases b <;> decide
  | null | string _ | array _ | object _ => simp [head, heads]

theorem alike_of_head_eq {j k : Json} (h : j.head = k.head) : Alike j k := by
  rcases j with _ | (_ | _) | s | js | ms <;> rcases k with _ | (_ | _) | t | ks | ns <;>
    first | constructor | simp [head] at h

namespace Layout.Writes

theorem head?_write (h : L.Writes write) (level : Nat) (j : Json) :
    (write level j).toList.head? = some j.head := by
  cases j with
  | null =>
    rw [h.null]
    rfl
  | bool b =>
    rw [h.bool]
    cases b <;> rfl
  | string s =>
    rw [h.string, toList_quote]
    rfl
  | array items =>
    rw [h.array]
    cases items with
    | nil => rw [toList_block_nil]; rfl
    | cons j js => rw [toList_block_cons]; rfl
  | object members =>
    rw [h.object]
    cases members with
    | nil => rw [toList_block_nil]; rfl
    | cons m ms => rw [toList_block_cons]; rfl

theorem alike (h : L.Writes write) {level : Nat} {j k : Json} {xs ys : List Char}
    (heq : (write level j).toList ++ xs = (write level k).toList ++ ys) : Alike j k := by
  have hheads := congrArg List.head? heq
  rw [List.head?_append, List.head?_append, h.head?_write, h.head?_write] at hheads
  exact alike_of_head_eq (Option.some.inj hheads)

mutual

theorem selfDelimiting (h : L.Writes write) : (j : Json) → ∀ level, SelfDelimiting (write level) j
  | .null, level, k, xs, ys, heq => by
    cases h.alike heq
    exact ⟨rfl, List.append_cancel_left heq⟩
  | .bool b, level, k, xs, ys, heq => by
    cases h.alike heq
    exact ⟨rfl, List.append_cancel_left heq⟩
  | .string s, level, k, xs, ys, heq => by
    cases h.alike heq with
    | string s t =>
      rw [h.string, h.string] at heq
      obtain ⟨rfl, hrest⟩ := selfDelimiting_quote s t xs ys heq
      exact ⟨rfl, hrest⟩
  | .array items, level, k, xs, ys, heq => by
    cases h.alike heq with
    | array items others =>
      rw [h.array, h.array] at heq
      have hheads : ∀ j, ∃ c ∈ heads, (write (level + 1) j).toList.head? = some c :=
        fun j => ⟨j.head, j.head_mem_heads, h.head?_write _ j⟩
      obtain ⟨rfl, hrest⟩ := block_inj (by decide) hheads (h.selfDelimiting_items items _) heq
      exact ⟨rfl, hrest⟩
  | .object members, level, k, xs, ys, heq => by
    cases h.alike heq with
    | object members others =>
      rw [h.object, h.object] at heq
      obtain ⟨rfl, hrest⟩ := block_inj (by decide) head?_member
        (h.selfDelimiting_members members _) heq
      exact ⟨rfl, hrest⟩

theorem selfDelimiting_items (h : L.Writes write) : (items : List Json) → ∀ level,
    ∀ j ∈ items, SelfDelimiting (write level) j
  | [], _ => nofun
  | j :: js, level =>
    List.forall_mem_cons.mpr ⟨h.selfDelimiting j level, h.selfDelimiting_items js level⟩

theorem selfDelimiting_members (h : L.Writes write) : (members : List (String × Json)) → ∀ level,
    ∀ m ∈ members, SelfDelimiting (L.member (write level)) m
  | [], _ => nofun
  | m :: ms, level =>
    List.forall_mem_cons.mpr
      ⟨selfDelimiting_member (h.selfDelimiting_value m level), h.selfDelimiting_members ms level⟩

theorem selfDelimiting_value (h : L.Writes write) : (m : String × Json) → ∀ level,
    SelfDelimiting (write level) m.2
  | (_, j), level => h.selfDelimiting j level

end

end Layout.Writes

def compactLayout : Layout where
  lead _ := ""
  gap _ := ""
  tail _ := ""
  colon := ":"
  lead_head := nofun
  tail_head := nofun

theorem compactItems_eq_map (js : List Json) : compactItems js = js.map compact := by
  induction js with
  | nil => rfl
  | cons j js ih => rw [compactItems, ih, List.map_cons]

theorem compactMembers_eq_map (ms : List (String × Json)) :
    compactMembers ms = ms.map (compactLayout.member compact) := by
  induction ms with
  | nil => rfl
  | cons m ms ih =>
    rw [compactMembers, ih, List.map_cons, compactMember, Layout.member, String.append_assoc]
    rfl

theorem block_compactLayout (opening : String) (closing : Char) (level : Nat)
    (parts : List String) : compactLayout.block opening closing level parts =
      opening ++ ",".intercalate parts ++ closing.toString := by
  cases parts with
  | nil => simp [Layout.block]
  | cons p ps =>
    rw [Layout.block, if_neg (by simp)]
    simp only [compactLayout, String.append_empty, String.empty_append, String.append_assoc]

theorem writes_compact : compactLayout.Writes fun _ => compact where
  null _ := rfl
  bool _ b := by cases b <;> rfl
  string _ _ := rfl
  array level items := by
    rw [compact, compactItems_eq_map, block_compactLayout]
    rfl
  object level members := by
    rw [compact, compactMembers_eq_map, block_compactLayout]
    rfl

theorem compact_injective : Function.Injective compact :=
  fun j _ h => (writes_compact.selfDelimiting j 0).eq h

def prettyLayout : Layout where
  lead level := "\n" ++ indent (level + 1)
  gap level := "\n" ++ indent (level + 1)
  tail level := "\n" ++ indent level
  colon := ": "
  lead_head := by
    intro level c hc
    simpa [eq_comm] using hc
  tail_head := by
    intro level c hc
    simpa [eq_comm] using hc

theorem prettyItems_eq_map (level : Nat) (js : List Json) :
    prettyItems level js = js.map (prettyAt level) := by
  induction js with
  | nil => rfl
  | cons j js ih => rw [prettyItems, ih, List.map_cons]

theorem prettyMembers_eq_map (level : Nat) (ms : List (String × Json)) :
    prettyMembers level ms = ms.map (prettyLayout.member (prettyAt level)) := by
  induction ms with
  | nil => rfl
  | cons m ms ih =>
    rw [prettyMembers, ih, List.map_cons, prettyMember, Layout.member, String.append_assoc]
    rfl

theorem block_prettyLayout (opening : String) (closing : Char) (level : Nat)
    (parts : List String) : prettyLayout.block opening closing level parts =
      Json.block opening closing.toString level parts := by
  cases parts with
  | nil => simp [Layout.block, Json.block]
  | cons p ps =>
    have hgap : "," ++ ("\n" ++ indent (level + 1)) = ",\n" ++ indent (level + 1) := by
      rw [← String.append_assoc]
      rfl
    rw [Layout.block, Json.block, if_neg (by simp), if_neg (by simp)]
    simp only [prettyLayout, hgap, String.append_assoc]

theorem writes_pretty : prettyLayout.Writes prettyAt where
  null _ := rfl
  bool _ b := by cases b <;> rfl
  string _ _ := rfl
  array level items := by
    rw [prettyAt, prettyItems_eq_map, block_prettyLayout]
    rfl
  object level members := by
    rw [prettyAt, prettyMembers_eq_map, block_prettyLayout]
    rfl

theorem pretty_injective : Function.Injective pretty :=
  fun j _ h => (writes_pretty.selfDelimiting j 0).eq h

end ResourceQuery.Json
