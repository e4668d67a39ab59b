import Mathlib.Data.List.SplitBy
import PackedRecord.Proofs.C.Trace

/-!
# What a line mentions

A line of C falls into tokens: names and numbers as a whole, and everything else one character at a time.
A name that stands behind a dot or an arrow is that of a member, so a field that has the name of a variable
or function is no mention of it.

* `Mentions`: a name occurs in a line, other than as that of a member.
* `Mentions.of_framed`: what is mentioned in a text is mentioned in one of its parts.
* `not_mentions_place`: the text of a place mentions only its base.
* `watched` are the names by which a function gets at the buffer, and the lemmas behind it say which of
  them a line mentions.
-/

namespace PackedRecord.C

/-! ## Tokens -/

/-- The tokens of a text. -/
def tokens (text : List Char) : List (List Char) :=
  text.splitBy fun a b => continuesName a && continuesName b

/-- What stands in front of the name of a member ends like this. -/
def EndsAccess (front : List (List Char)) : Prop :=
  [['.']] <:+ front ∨ [['-'], ['>']] <:+ front

instance (front : List (List Char)) : Decidable (EndsAccess front) :=
  inferInstanceAs (Decidable (_ ∨ _))

/-- A token occurs among others, other than as the name of a member. -/
def Occurs (token : List Char) (list : List (List Char)) : Prop :=
  ∃ n, n < list.length ∧ list[n]? = some token ∧ ¬ EndsAccess (list.take n)

instance (token : List Char) (list : List (List Char)) : Decidable (Occurs token list) :=
  inferInstanceAs (Decidable (∃ n, n < _ ∧ _))

def Mentions (name line : String) : Prop :=
  Occurs name.toList (tokens line.toList)

instance (name line : String) : Decidable (Mentions name line) :=
  inferInstanceAs (Decidable (Occurs _ _))

example : Mentions "offset" "  offset += len;" := by decide

example : ¬ Mentions "offset" "out->offset.offset = 1;" := by decide

theorem occurs_iff {token : List Char} {list : List (List Char)} :
    Occurs token list ↔ ∃ front back, list = front ++ token :: back ∧ ¬ EndsAccess front := by
  constructor
  · rintro ⟨n, inside, found, free⟩
    refine ⟨list.take n, list.drop (n + 1), ?_, free⟩
    obtain ⟨-, rfl⟩ := List.getElem?_eq_some_iff.mp found
    rw [← List.drop_eq_getElem_cons inside, List.take_append_drop]
  · rintro ⟨front, back, rfl, free⟩
    exact ⟨front.length, by simp, by simp, by simpa using free⟩

theorem EndsAccess.append {front : List (List Char)} (ends : EndsAccess front) (before : List (List Char)) :
    EndsAccess (before ++ front) :=
  ends.imp (List.suffix_append_of_suffix) (List.suffix_append_of_suffix)

theorem Occurs.of_append {token : List Char} {list more : List (List Char)}
    (occurs : Occurs token (list ++ more)) : Occurs token list ∨ Occurs token more := by
  obtain ⟨front, back, split, free⟩ := occurs_iff.mp occurs
  rcases split_append split with ⟨between, rfl, -⟩ | ⟨between, rfl, rfl⟩
  · exact .inl (occurs_iff.mpr ⟨front, between, rfl, free⟩)
  · exact .inr (occurs_iff.mpr ⟨between, back, rfl, fun ends => free (ends.append list)⟩)

theorem Occurs.mem {token : List Char} {list : List (List Char)} (occurs : Occurs token list) :
    token ∈ list := by
  obtain ⟨front, back, rfl, -⟩ := occurs_iff.mp occurs
  simp

theorem tokens_append {a b : List Char} (apart : ∀ c ∈ b.head?, continuesName c = false) :
    tokens (a ++ b) = tokens a ++ tokens b := by
  refine List.splitBy_append fun x _ y listed => ?_
  simp [apart y listed]

theorem tokens_append_of_getLast {a b : List Char} (apart : ∀ c ∈ a.getLast?, continuesName c = false) :
    tokens (a ++ b) = tokens a ++ tokens b := by
  refine List.splitBy_append fun x listed y _ => ?_
  simp [apart x listed]

/-- A name with another character than a text is not mentioned in it. -/
theorem not_mentions_of_notMem {name line : String} {c : Char} (inName : c ∈ name.toList)
    (outside : c ∉ line.toList) : ¬ Mentions name line := by
  intro mentions
  have listed := Occurs.mem mentions
  rw [← List.flatten_splitBy (fun a b => continuesName a && continuesName b) line.toList] at outside
  exact outside (List.mem_flatten.mpr ⟨_, listed, inName⟩)

/-! ## Texts in parts -/

/-- What follows a text that closes is no continuation of its last token. -/
def Closes (text : String) : Prop :=
  text.toList.getLast?.all (fun c => !continuesName c) = true

/-- A text that opens is no continuation of what it follows. -/
def Opens (text : String) : Prop :=
  text.toList.head?.all (fun c => !continuesName c) = true

instance (text : String) : Decidable (Closes text) :=
  inferInstanceAs (Decidable (_ = _))

instance (text : String) : Decidable (Opens text) :=
  inferInstanceAs (Decidable (_ = _))

theorem Opens.append {front : String} (opens : Opens front) (nonempty : front.toList ≠ []) (back : String) :
    Opens (front ++ back) := by
  rwa [Opens, String.toList_append, List.head?_append_of_ne_nil _ nonempty]

theorem Closes.append {back : String} (closes : Closes back) (nonempty : back.toList ≠ []) (front : String) :
    Closes (front ++ back) := by
  rwa [Closes, String.toList_append, List.getLast?_append_of_ne_nil _ nonempty]

theorem Opens.tokens_append {back : String} (opens : Opens back) (front : String) :
    tokens (front ++ back).toList = tokens front.toList ++ tokens back.toList := by
  rw [String.toList_append, C.tokens_append]
  simpa [Opens, Option.all_eq_true] using opens

theorem Closes.tokens_append {front : String} (closes : Closes front) (back : String) :
    tokens (front ++ back).toList = tokens front.toList ++ tokens back.toList := by
  rw [String.toList_append, tokens_append_of_getLast]
  simpa [Closes, Option.all_eq_true] using closes

theorem closes_blanks (n : Nat) : Closes (String.ofList (List.replicate n ' ')) := by
  rw [Closes, String.toList_ofList, List.getLast?_replicate]
  split <;> rfl

theorem Mentions.of_closes {name front back : String} (closes : Closes front)
    (mentions : Mentions name (front ++ back)) : Mentions name front ∨ Mentions name back := by
  rw [Mentions, closes.tokens_append] at mentions
  exact mentions.of_append

theorem Mentions.of_opens {name front back : String} (opens : Opens back)
    (mentions : Mentions name (front ++ back)) : Mentions name front ∨ Mentions name back := by
  rw [Mentions, opens.tokens_append] at mentions
  exact mentions.of_append

theorem Mentions.of_framed {name front text back : String} (closes : Closes front) (opens : Opens back)
    (mentions : Mentions name (front ++ text ++ back)) :
    Mentions name front ∨ Mentions name text ∨ Mentions name back := by
  rcases mentions.of_opens opens with mentions | mentions
  · exact (mentions.of_closes closes).imp_right .inl
  · exact .inr (.inr mentions)

/-! ## Places -/

theorem tokens_of_continues {word : List Char} (nonempty : word ≠ [])
    (continues : ∀ c ∈ word, continuesName c = true) : tokens word = [word] := by
  refine List.splitBy_of_isChain nonempty ?_
  refine List.Pairwise.isChain (List.pairwise_of_forall_mem_list fun a first b second => ?_)
  simp [continues a first, continues b second]

theorem tokens_of_isIdentifier {name : String} (identifier : isIdentifier name = true) :
    tokens name.toList = [name.toList] :=
  tokens_of_continues (toList_ne_nil_of_isIdentifier identifier) (continuesName_of_mem identifier)

theorem tokens_path {name next : String} (identifier : isIdentifier name = true) (rest : List (List Char)) :
    tokens (['.'].intercalate (name.toList :: next.toList :: rest)) =
      name.toList :: ['.'] :: tokens (['.'].intercalate (next.toList :: rest)) := by
  rw [List.intercalate_cons_cons, List.append_assoc, tokens_append (by simp; rfl),
    tokens_of_isIdentifier identifier, tokens_append_of_getLast (by simp; rfl)]
  rfl

/-- Behind an access, a path has nothing but names of members and dots. -/
theorem endsAccess_of_path {token : List Char} (undotted : token ≠ ['.']) {names : List String}
    (identifiers : ∀ name ∈ names, isIdentifier name = true) {before front back : List (List Char)}
    (ends : EndsAccess before)
    (split : tokens (['.'].intercalate (names.map String.toList)) = front ++ token :: back) :
    EndsAccess (before ++ front) := by
  induction names generalizing before front with
  | nil => simp [tokens] at split
  | cons name names inductionHypothesis =>
    obtain ⟨identifier, others⟩ := List.forall_mem_cons.mp identifiers
    cases names with
    | nil =>
      rw [List.map_singleton, List.intercalate_singleton, tokens_of_isIdentifier identifier] at split
      cases front with
      | nil => simpa using ends
      | cons a front => simp at split
    | cons next names =>
      rw [List.map_cons, List.map_cons, tokens_path identifier] at split
      -- Two tokens at a time: the name, in front of which there is an access, and the dot, which is one.
      rcases front with _ | ⟨a, _ | ⟨b, front⟩⟩
      · simpa using ends
      · simp only [List.cons_append, List.nil_append, List.cons.injEq] at split
        exact absurd split.2.1.symm undotted
      · simp only [List.cons_append, List.cons.injEq] at split
        obtain ⟨rfl, rfl, split⟩ := split
        have dotted : EndsAccess (before ++ [name.toList, ['.']]) := .inl ⟨before ++ [name.toList], by simp⟩
        simpa using inductionHypothesis others dotted split

theorem tokens_place {place : Place} (identifier : isIdentifier place.scope.base = true) :
    tokens place.text.toList =
      place.scope.base.toList :: ['-'] :: ['>'] ::
        tokens (['.'].intercalate (place.path.map String.toList)) := by
  rw [Place.toList_text, tokens_append (by simp; rfl), tokens_of_isIdentifier identifier,
    show ∀ rest, '-' :: '>' :: rest = ['-', '>'] ++ rest from fun _ => rfl,
    tokens_append_of_getLast (by simp; rfl)]
  rfl

/-- The text of a place mentions no name but that of the base. -/
theorem not_mentions_place {base name : String} (identifier : isIdentifier name = true)
    (different : name ≠ base) {place : Place} (below : place.Below base) : ¬ Mentions name place.text := by
  obtain ⟨⟨baseIdentifier, path⟩, rfl⟩ := below
  have foreign : ∀ {c : Char}, continuesName c = false → name.toList ≠ [c] := by
    intro c outside same
    exact notMem_of_isIdentifier identifier outside (by simp [same])
  intro mentions
  obtain ⟨front, back, split, free⟩ := occurs_iff.mp mentions
  rw [tokens_place baseIdentifier] at split
  rcases front with _ | ⟨a, _ | ⟨b, _ | ⟨c, front⟩⟩⟩
  · exact different (String.toList_injective (List.cons.inj split).1.symm)
  · simp only [List.cons_append, List.nil_append, List.cons.injEq] at split
    exact foreign rfl split.2.1.symm
  · simp only [List.cons_append, List.nil_append, List.cons.injEq] at split
    exact foreign rfl split.2.2.1.symm
  · simp only [List.cons_append, List.cons.injEq] at split
    obtain ⟨rfl, rfl, rfl, split⟩ := split
    have arrow : EndsAccess [place.scope.base.toList, ['-'], ['>']] := .inr ⟨[place.scope.base.toList], rfl⟩
    exact free (endsAccess_of_path (foreign rfl) path arrow split)

/-! ## What gets at the buffer -/

/-- The names by which a function gets at the buffer. -/
def watched : List String := ["alon_memcpy", "buffer", "length", "offset"]

section

variable {base name : String} (among : name ∈ watched)

include among

theorem not_mentions_toString (n : Nat) : ¬ Mentions name (toString n) := by
  have each : ∀ name ∈ watched, name.toList.any (fun c => !c.isDigit) = true := by decide
  obtain ⟨c, inName, foreign⟩ := List.any_eq_true.mp (each name among)
  exact not_mentions_of_notMem inName (notMem_toString (by simpa using foreign) n)

theorem Mentions.of_indented {level : Nat} {line : String} (mentions : Mentions name (indented level line)) :
    Mentions name line := by
  have each : ∀ name ∈ watched, name.toList.any (· != ' ') = true := by decide
  obtain ⟨c, inName, visible⟩ := List.any_eq_true.mp (each name among)
  have blanks : ¬ Mentions name (String.ofList (List.replicate (2 * level) ' ')) :=
    not_mentions_of_notMem inName (by simpa using fun _ => bne_iff_ne.mp visible)
  rw [indented] at mentions
  exact (mentions.of_closes (closes_blanks (2 * level))).resolve_left blanks

theorem not_mentions_width (width : Width) : ¬ Mentions name width.text := by
  cases width with
  | literal n => exact not_mentions_toString among n
  | len =>
    have each : ∀ name ∈ watched, ¬ Mentions name Width.len.text := by decide
    exact each name among

variable (unwatched : base ∉ watched)

include unwatched

theorem not_mentions_lvalue {x : Lvalue} (below : x.Below base) : ¬ Mentions name x.text := by
  have different : name ≠ base := fun same => unwatched (same ▸ among)
  have identifiers : ∀ name ∈ watched, isIdentifier name = true := by decide
  cases below with
  | field below => exact not_mentions_place (identifiers name among) different below
  | @item place below =>
    have behind : ∀ name ∈ watched, ¬ Mentions name "[i]" := by decide
    intro mentions
    rw [show (Lvalue.item place .counter).text = place.text ++ "[i]" by
      simp [Lvalue.text, Subscript.text, String.append_assoc]] at mentions
    rcases mentions.of_opens (by decide) with mentions | mentions
    · exact not_mentions_place (identifiers name among) different below mentions
    · exact behind name among mentions

theorem not_mentions_memory {memory : Memory} (below : memory.Below base) : ¬ Mentions name memory.text := by
  have locals : ∀ name ∈ watched,
      ¬ Mentions name "&len" ∧ ¬ Mentions name "&flag" ∧ ¬ Mentions name "&" := by decide
  obtain ⟨len, flag, address⟩ := locals name among
  cases below with
  | len => exact len
  | flag => exact flag
  | object below =>
    intro mentions
    exact (mentions.of_closes (by decide)).elim address (not_mentions_lvalue among unwatched below)
  | pointee below => exact not_mentions_lvalue among unwatched below

theorem Aside.not_mentions {line : String} (aside : Aside base line) : ¬ Mentions name line := by
  cases aside with
  | plain listed =>
    have each : ∀ line ∈ plainLines, ∀ name ∈ watched, ¬ Mentions name line := by decide
    exact each line listed name among
  | @framed front back x listed below =>
    have each : ∀ sides ∈ framedLines, Closes sides.1 ∧ Opens sides.2 ∧
        ∀ name ∈ watched, ¬ Mentions name sides.1 ∧ ¬ Mentions name sides.2 := by decide
    obtain ⟨closes, opens, silent⟩ := each _ listed
    intro mentions
    rcases mentions.of_framed closes opens with mentions | mentions | mentions
    · exact (silent name among).1 mentions
    · exact not_mentions_lvalue among unwatched below mentions
    · exact (silent name among).2 mentions

end

/-! ## Lines of events -/

section

variable {name : String} (among : name ∈ watched)

include among

/-- A text that mentions nothing adds nothing to its frame. -/
theorem Mentions.mem_of_framed {front text back : String} (allowed : List String)
    (frame : Closes front ∧ Opens back ∧
      ∀ name ∈ watched, (Mentions name front → name ∈ allowed) ∧ (Mentions name back → name ∈ allowed))
    (silent : ¬ Mentions name text) (mentions : Mentions name (front ++ text ++ back)) : name ∈ allowed := by
  obtain ⟨closes, opens, each⟩ := frame
  rcases mentions.of_framed closes opens with mentions | mentions | mentions
  · exact (each name among).1 mentions
  · exact absurd mentions silent
  · exact (each name among).2 mentions

theorem mentions_check {size : Nat} (mentions : Mentions name (checkText size)) : name ∈ ["length"] := by
  unfold checkText at mentions
  exact mentions.mem_of_framed among _ (by decide) (not_mentions_toString among size)

theorem mentions_seed {offset : Nat} (mentions : Mentions name (seedText offset)) : name ∈ ["offset"] := by
  unfold seedText at mentions
  exact mentions.mem_of_framed among _ (by decide) (not_mentions_toString among offset)

theorem not_mentions_loop (count : Nat) : ¬ Mentions name (loopText count) := by
  intro mentions
  unfold loopText at mentions
  exact List.not_mem_nil (mentions.mem_of_framed among [] (by decide) (not_mentions_toString among count))

theorem mentions_guard {width : Width} (mentions : Mentions name (guardText width.text)) :
    name ∈ ["length", "offset"] := by
  unfold guardText at mentions
  exact mentions.mem_of_framed among _ (by decide) (not_mentions_width among width)

theorem mentions_advance {width : Width} (mentions : Mentions name (advanceText width.text)) :
    name ∈ ["offset"] := by
  unfold advanceText at mentions
  exact mentions.mem_of_framed among _ (by decide) (not_mentions_width among width)

theorem Mentions.of_comma {first second : String} (mentions : Mentions name (first ++ ", " ++ second)) :
    Mentions name first ∨ Mentions name second := by
  have silent : ∀ name ∈ watched, ¬ Mentions name ", " := by decide
  rw [String.append_assoc] at mentions
  have opens : Opens (", " ++ second) := by simp [Opens]; rfl
  rcases mentions.of_opens opens with mentions | mentions
  · exact .inl mentions
  · exact .inr ((mentions.of_closes (by decide)).resolve_left (silent name among))

/-- A copy mentions what it copies with, and what its parts mention. -/
theorem mentions_copyText {direction : Direction} {memory position width : String}
    (mentions : Mentions name (copyText direction memory position width))
    (memorySilent : ¬ Mentions name memory) (widthSilent : ¬ Mentions name width) :
    name ∈ ["alon_memcpy", "buffer"] ∨ Mentions name position := by
  have literals : ∀ name ∈ watched, (Mentions name "alon_memcpy(" ∨ Mentions name "buffer + " →
      name ∈ ["alon_memcpy", "buffer"]) ∧ ¬ Mentions name ");" := by decide
  obtain ⟨allowed, closing⟩ := literals name among
  have side : ∀ text, text = memory ∨ text = "buffer + " ++ position → Mentions name text →
      name ∈ ["alon_memcpy", "buffer"] ∨ Mentions name position := by
    rintro text (rfl | rfl) mentions
    · exact absurd mentions memorySilent
    · exact (mentions.of_closes (by decide)).imp_left fun buffer => allowed (.inr buffer)
  unfold copyText at mentions
  rcases mentions.of_opens (by decide) with mentions | mentions
  · rcases mentions.of_comma among with mentions | mentions
    · rcases mentions.of_comma among with mentions | mentions
      · rcases mentions.of_closes (by decide) with opening | mentions
        · exact .inl (allowed (.inl opening))
        · exact side _ (by cases direction <;> simp [Direction.sides]) mentions
      · exact side _ (by cases direction <;> simp [Direction.sides]) mentions
    · exact absurd mentions widthSilent
  · exact absurd mentions closing

variable {base : String} (unwatched : base ∉ watched)

include unwatched

theorem mentions_staticCopy {direction : Direction} {memory : Memory} {position width : Nat}
    (below : memory.Below base)
    (mentions : Mentions name (copyText direction memory.text (toString position) (toString width))) :
    name ∈ ["alon_memcpy", "buffer"] :=
  (mentions_copyText among mentions (not_mentions_memory among unwatched below)
    (not_mentions_toString among width)).resolve_right (not_mentions_toString among position)

theorem mentions_cursorCopy {direction : Direction} {memory : Memory} {width : Width}
    (below : memory.Below base)
    (mentions : Mentions name (copyText direction memory.text "offset" width.text)) :
    name ∈ ["alon_memcpy", "buffer", "offset"] := by
  have position : ∀ name ∈ watched,
      Mentions name "offset" → name ∈ ["alon_memcpy", "buffer", "offset"] := by decide
  rcases mentions_copyText among mentions (not_mentions_memory among unwatched below)
    (not_mentions_width among width) with known | mentions
  · exact List.mem_append_left ["offset"] known
  · exact position name among mentions

end

theorem EndsAccess.of_append {before front : List (List Char)} (ends : EndsAccess (before ++ front))
    (long : 2 ≤ front.length) : EndsAccess front := by
  have own : front <:+ before ++ front := List.suffix_append before front
  rcases ends with dot | arrow
  · exact .inl (List.suffix_of_suffix_length_le dot own (Nat.le_of_succ_le long))
  · exact .inr (List.suffix_of_suffix_length_le arrow own long)

/-- What the text that a line leads with mentions, unless it is so early that something in front could be an
access to it. -/
theorem mentions_of_lead {name lead : String} {front back : List (List Char)} (closes : Closes lead)
    (split : tokens lead.toList = front ++ name.toList :: back) (late : 2 ≤ front.length)
    (free : ¬ EndsAccess front) (level : Nat) (rest : String) :
    Mentions name (indented level (lead ++ rest)) := by
  rw [Mentions, indented, (closes_blanks _).tokens_append, closes.tokens_append, split]
  refine occurs_iff.mpr ⟨tokens (String.ofList (List.replicate (2 * level) ' ')).toList ++ front,
    back ++ tokens rest.toList, by simp, ?_⟩
  exact fun ends => free (ends.of_append late)

theorem mentions_checkLine (level size : Nat) : Mentions "length" (indented level (checkText size)) := by
  have split : tokens "if (length < ".toList =
      [['i', 'f'], [' '], ['(']] ++ "length".toList :: [[' '], ['<'], [' ']] := by decide
  unfold checkText
  rw [String.append_assoc]
  exact mentions_of_lead (by decide) split (by decide) (by decide) level _

theorem mentions_seedLine (level offset : Nat) : Mentions "offset" (indented level (seedText offset)) := by
  have split : tokens "uint64_t offset = ".toList =
      ["uint64_t".toList, [' ']] ++ "offset".toList :: [[' '], ['='], [' ']] := by decide
  unfold seedText
  rw [String.append_assoc]
  exact mentions_of_lead (by decide) split (by decide) (by decide) level _

theorem mentions_guardLine (level : Nat) (width : String) :
    Mentions "offset" (indented level (guardText width)) := by
  have split : tokens "if (length - offset < ".toList =
      [['i', 'f'], [' '], ['('], "length".toList, [' '], ['-'], [' ']] ++
        "offset".toList :: [[' '], ['<'], [' ']] := by decide
  unfold guardText
  rw [String.append_assoc]
  exact mentions_of_lead (by decide) split (by decide) (by decide) level _

end PackedRecord.C
