import Motif.Proofs.Json.Spelling
import Motif.Proofs.Text.Quoted
import Motif.Tree.Format

/-!
# Documents, read back from their text

The text of a sound document is read back as the document. The reader is given fuel for the length of
the text: each of its calls has at least one character of its own.
-/

namespace Motif.Json

open Text.Quoted List

variable {entries : List (String × Json)} {fuel limit : Nat} {items : List Json} {cs rest : List Char}
  {item : Json} {text : String}

theorem skipBlank_newline (depth : Nat) (cs : List Char) :
    skipBlank ((newline depth).toList ++ cs) = skipBlank cs := by
  have hall : ∀ c ∈ (newline depth).toList, isBlank c = true := by
    intro c hc
    simp only [newline, String.toList_append, String.toList_ofList, mem_append,
      mem_replicate] at hc
    rcases hc with hc | ⟨-, rfl⟩
    · obtain rfl := mem_singleton.mp hc
      decide
    · decide
  rw [skipBlank, dropWhile_append_of_pos hall, skipBlank]

theorem spanValue_newline (fuel depth : Nat) (cs : List Char) :
    spanValue fuel ((newline depth).toList ++ cs) = spanValue fuel cs := by
  cases fuel with
  | zero => rfl
  | succ fuel => rw [spanValue, spanValue, skipBlank_newline]

theorem skipBlank_cons {c : Char} (h : isBlank c = false) (cs : List Char) :
    skipBlank (c :: cs) = c :: cs := by
  simp [skipBlank, h]

theorem isBlank_of_isNumberChar {c : Char} (h : isNumberChar c = true) : isBlank c = false := by
  cases hblank : isBlank c with
  | false => rfl
  | true =>
    simp only [isBlank, Bool.or_eq_true, beq_iff_eq] at hblank
    rcases hblank with ((rfl | rfl) | rfl) | rfl <;> exact absurd h (by decide)

theorem spanValue_number (h : (literal? text).isSome) (hrest : Ends rest) (fuel : Nat) :
    spanValue (fuel + 1) (text.toList ++ rest) = some (.number text, rest) := by
  have hall := isNumberChar_of_literal? h
  have hspan := spanNumber_literal h hrest
  obtain ⟨c, cs, htext⟩ : ∃ c cs, text.toList = c :: cs := by
    cases hcs : text.toList with
    | nil => rw [literal?, hcs] at h; cases h
    | cons c cs => exact ⟨c, cs, rfl⟩
  have hc := hall c (by simp [htext])
  rw [htext] at hspan ⊢
  rw [spanValue, cons_append, skipBlank_cons]
  · rw [cons_append] at hspan
    split <;> simp_all [isNumberChar, isDigit]
  · exact isBlank_of_isNumberChar hc

theorem spanValue_array (h : ∀ rest, skipBlank cs ≠ ']' :: rest) (fuel : Nat) :
    spanValue (fuel + 1) ('[' :: cs) = (spanItems fuel cs).map fun found => (.array found.1, found.2) := by
  rw [spanValue, skipBlank_cons (by decide)]
  split <;> grind

theorem spanValue_object (h : ∀ rest, skipBlank cs ≠ '\x7d' :: rest) (fuel : Nat) :
    spanValue (fuel + 1) ('\x7b' :: cs) =
      (spanEntries fuel cs).map fun found => (.object found.1, found.2) := by
  rw [spanValue, skipBlank_cons (by decide)]
  split <;> grind

theorem literal?_of_isSound (h : (Json.number text).isSound limit = true) : (literal? text).isSome := by
  rw [isSound] at h
  obtain ⟨x, hx⟩ := Option.isSome_iff_exists.mp h
  obtain ⟨l, hl, -⟩ := Option.bind_eq_some_iff.mp hx
  exact Option.isSome_of_eq_some hl

theorem skipBlank_prettyAt (depth : Nat) {j : Json} (h : j.isSound limit = true) (cs rest : List Char) :
    skipBlank ((prettyAt depth j).toList ++ cs) ≠ ']' :: rest := by
  cases j with
  | null => simp [prettyAt, skipBlank, isBlank]
  | bool b => cases b <;> simp [prettyAt, skipBlank, isBlank]
  | number text =>
    have hliteral := literal?_of_isSound h
    cases htext : text.toList with
    | nil => rw [literal?, htext] at hliteral; cases hliteral
    | cons c cs =>
      have hc := isNumberChar_of_literal? hliteral c (by simp [htext])
      rw [prettyAt, htext, cons_append, skipBlank_cons (isBlank_of_isNumberChar hc)]
      rintro ⟨⟩
      exact absurd hc (by decide)
  | string escaped => simp [prettyAt, skipBlank, isBlank]
  | array items => cases items <;> simp [prettyAt, skipBlank, isBlank]
  | object entries => cases entries <;> simp [prettyAt, skipBlank, isBlank]

theorem ends_newline (depth : Nat) (cs : List Char) : Ends ((newline depth).toList ++ cs) := by
  simp [newline, Ends, isNumberChar, isDigit]

/-! ## Lines

Items and entries are laid out alike: each has a line of its own, and so has the bracket that closes them.
-/

/-- The lines of a container after the bracket that opens it. -/
def closedLines (close : Char) (depth : Nat) (lines : List String) : List Char :=
  (",".intercalate lines).toList ++ (newline depth).toList ++ [close]

/-- What follows the first line, if these are the lines after it. -/
def afterLine (close : Char) (depth : Nat) : List String → List Char
  | [] => (newline depth).toList ++ [close]
  | lines => ',' :: closedLines close depth lines

def itemLines (depth : Nat) (items : List Json) : List Char :=
  closedLines ']' depth (prettyItems (depth + 1) items)

def entryLines (depth : Nat) (entries : List (String × Json)) : List Char :=
  closedLines '\x7d' depth (prettyEntries (depth + 1) entries)

theorem closedLines_cons (close : Char) (depth : Nat) (line : String) (lines : List String) :
    closedLines close depth (line :: lines) = line.toList ++ afterLine close depth lines := by
  cases lines <;>
    simp [closedLines, afterLine, String.intercalate_singleton, String.intercalate_cons_cons]

theorem itemLines_cons (depth : Nat) (item : Json) (items : List Json) : itemLines depth (item :: items) =
    (newline (depth + 1)).toList ++ ((prettyAt (depth + 1) item).toList ++
      afterLine ']' depth (prettyItems (depth + 1) items)) := by
  simp [itemLines, prettyItems, closedLines_cons]

theorem entryLines_cons (depth : Nat) (entry : String × Json) (entries : List (String × Json)) :
    entryLines depth (entry :: entries) =
      (newline (depth + 1)).toList ++ '"' :: (entry.1.toList ++ '"' :: ':' :: ' ' ::
        ((prettyAt (depth + 1) entry.2).toList ++
          afterLine '\x7d' depth (prettyEntries (depth + 1) entries))) := by
  obtain ⟨key, value⟩ := entry
  simp [entryLines, prettyEntries, closedLines_cons]

theorem ends_afterLine (close : Char) (depth : Nat) (lines : List String) (rest : List Char) :
    Ends (afterLine close depth lines ++ rest) := by
  cases lines with
  | nil => rw [afterLine, append_assoc]; exact ends_newline _ _
  | cons => exact .cons (by decide) _

theorem skipBlank_afterLine (close : Char) (hclose : isBlank close = false) (depth : Nat)
    (lines : List String) (rest : List Char) : skipBlank (afterLine close depth lines ++ rest) =
      match lines with
      | [] => close :: rest
      | lines => ',' :: (closedLines close depth lines ++ rest) := by
  cases lines with
  | nil =>
    rw [afterLine, append_assoc, skipBlank_newline]
    exact skipBlank_cons hclose rest
  | cons => exact skipBlank_cons (by decide) _

/-- Induction over documents: what holds of a container if it holds of its members holds of all. -/
theorem ind {P : Json → Prop} (null : P .null) (bool : ∀ b, P (.bool b))
    (number : ∀ text, P (.number text)) (string : ∀ escaped, P (.string escaped))
    (array : ∀ items, (∀ item ∈ items, P item) → P (.array items))
    (object : ∀ entries, (∀ entry ∈ entries, P entry.2) → P (.object entries)) : ∀ j, P j
  | .null => null
  | .bool b => bool b
  | .number text => number text
  | .string escaped => string escaped
  | .array items => array items fun item _ => ind null bool number string array object item
  | .object entries => object entries fun entry _ => ind null bool number string array object entry.2
termination_by j => sizeOf j
decreasing_by
  · have := sizeOf_lt_of_mem ‹_›
    simp only [Json.array.sizeOf_spec]
    omega
  · have := sizeOf_lt_of_mem ‹_›
    obtain ⟨key, value⟩ := entry
    simp only [Json.object.sizeOf_spec, Prod.mk.sizeOf_spec] at *
    omega

/-- The document is read back from its text, whatever follows it. -/
def ReadsBack (j : Json) : Prop :=
  ∀ (depth fuel : Nat) (rest : List Char), Ends rest → (prettyAt depth j).toList.length ≤ fuel →
    spanValue fuel ((prettyAt depth j).toList ++ rest) = some (j, rest)

/-- One item is read, and then the rest of them if there are more lines. -/
theorem spanItems_item (hitem : item.ReadsBack) (depth : Nat) (lines : List String) (rest : List Char)
    (hfuel : (prettyAt (depth + 1) item).toList.length ≤ fuel) :
    spanItems (fuel + 1) ((newline (depth + 1)).toList ++ ((prettyAt (depth + 1) item).toList ++
      (afterLine ']' depth lines ++ rest))) =
        match lines with
        | [] => some ([item], rest)
        | lines => (spanItems fuel (closedLines ']' depth lines ++ rest)).map fun found =>
          (item :: found.1, found.2) := by
  have hvalue := hitem _ _ _ (ends_afterLine ']' depth lines rest) hfuel
  have hafter := skipBlank_afterLine ']' (by decide) depth lines rest
  cases lines <;> simp [spanItems, spanValue_newline, hvalue, hafter]

theorem spanItems_itemLines (depth : Nat) (h : ∀ i ∈ item :: items, i.ReadsBack)
    (hfuel : (itemLines depth (item :: items)).length ≤ fuel) (rest : List Char) :
    spanItems fuel (itemLines depth (item :: items) ++ rest) = some (item :: items, rest) := by
  have hnewline : 0 < (newline (depth + 1)).toList.length := by simp [newline]
  induction items generalizing item fuel with
  | nil =>
    rw [itemLines_cons] at hfuel ⊢
    simp only [length_append] at hfuel
    obtain ⟨fuel, rfl⟩ : ∃ n, fuel = n + 1 := ⟨fuel - 1, by omega⟩
    simp only [append_assoc]
    exact spanItems_item (h item mem_cons_self) depth [] rest (by omega)
  | cons next items ih =>
    rw [itemLines_cons] at hfuel ⊢
    simp only [length_append, afterLine, length_cons, prettyItems] at hfuel
    obtain ⟨fuel, rfl⟩ : ∃ n, fuel = n + 1 := ⟨fuel - 1, by omega⟩
    have hrest : spanItems fuel (itemLines depth (next :: items) ++ rest) = some (next :: items, rest) :=
      ih (fun i hi => h i (mem_cons_of_mem _ hi)) (by simp only [itemLines, prettyItems]; omega)
    simp only [append_assoc]
    rw [spanItems_item (h item mem_cons_self) _ _ _ (by omega)]
    exact congrArg (Option.map _) hrest

/-- One entry is read, and then the rest of them if there are more lines. -/
theorem spanEntries_entry {entry : String × Json} (hkey : (decode? entry.1).isSome)
    (hvalue : entry.2.ReadsBack) (depth : Nat) (lines : List String) (rest : List Char)
    (hfuel : (prettyAt (depth + 1) entry.2).toList.length ≤ fuel) :
    spanEntries (fuel + 1) ((newline (depth + 1)).toList ++ '"' :: (entry.1.toList ++ '"' :: ':' :: ' ' ::
      ((prettyAt (depth + 1) entry.2).toList ++ (afterLine '\x7d' depth lines ++ rest)))) =
        match lines with
        | [] => some ([entry], rest)
        | lines => (spanEntries fuel (closedLines '\x7d' depth lines ++ rest)).map fun found =>
          (entry :: found.1, found.2) := by
  obtain ⟨key, value⟩ := entry
  have hspan := spanString_of_decode? hkey (':' :: ' ' ::
    ((prettyAt (depth + 1) value).toList ++ (afterLine '\x7d' depth lines ++ rest)))
  have hvalue := hvalue _ _ _ (ends_afterLine '\x7d' depth lines rest) hfuel
  have hafter := skipBlank_afterLine '\x7d' (by decide) depth lines rest
  have hblank (cs : List Char) : spanValue fuel (' ' :: cs) = spanValue fuel cs := by cases fuel <;> rfl
  cases lines <;>
    simp [spanEntries, skipBlank_newline, skipBlank_cons, isBlank, hspan, hblank, hvalue, hafter]

theorem spanEntries_entryLines {entry : String × Json} (depth : Nat)
    (h : ∀ e ∈ entry :: entries, (decode? e.1).isSome ∧ e.2.ReadsBack)
    (hfuel : (entryLines depth (entry :: entries)).length ≤ fuel) (rest : List Char) :
    spanEntries fuel (entryLines depth (entry :: entries) ++ rest) = some (entry :: entries, rest) := by
  induction entries generalizing entry fuel with
  | nil =>
    obtain ⟨hkey, hvalue⟩ := h entry mem_cons_self
    rw [entryLines_cons] at hfuel ⊢
    simp only [length_append, length_cons] at hfuel
    obtain ⟨fuel, rfl⟩ : ∃ n, fuel = n + 1 := ⟨fuel - 1, by omega⟩
    simp only [append_assoc, cons_append]
    exact spanEntries_entry hkey hvalue depth [] rest (by omega)
  | cons next entries ih =>
    obtain ⟨hkey, hvalue⟩ := h entry mem_cons_self
    rw [entryLines_cons] at hfuel ⊢
    simp only [length_append, length_cons, afterLine, prettyEntries] at hfuel
    obtain ⟨fuel, rfl⟩ : ∃ n, fuel = n + 1 := ⟨fuel - 1, by omega⟩
    have hrest : spanEntries fuel (entryLines depth (next :: entries) ++ rest) =
        some (next :: entries, rest) :=
      ih (fun e he => h e (mem_cons_of_mem _ he)) (by simp only [entryLines, prettyEntries]; omega)
    simp only [append_assoc, cons_append]
    rw [spanEntries_entry hkey hvalue _ _ _ (by omega)]
    exact congrArg (Option.map _) hrest

theorem isSound_array :
    (Json.array items).isSound (limit + 1) = true ↔ ∀ item ∈ items, item.isSound limit = true := by
  rw [isSound]
  induction items with
  | nil => simp [areSound]
  | cons item items ih => simp [areSound, ih]

theorem isSound_object : (Json.object entries).isSound (limit + 1) = true ↔
      ∀ entry ∈ entries, (decode? entry.1).isSome ∧ entry.2.isSound limit = true := by
  rw [isSound]
  induction entries with
  | nil => simp [entriesAreSound]
  | cons entry entries ih =>
    obtain ⟨key, value⟩ := entry
    simp [entriesAreSound, ih, and_assoc]

theorem readsBack_of_succ {j : Json} (hne : ∀ depth, (prettyAt depth j).toList ≠ [])
    (h : ∀ depth fuel rest, Ends rest → (prettyAt depth j).toList.length ≤ fuel + 1 →
      spanValue (fuel + 1) ((prettyAt depth j).toList ++ rest) = some (j, rest)) : j.ReadsBack := by
  intro depth fuel rest hrest hfuel
  cases fuel with
  | zero => exact absurd (length_eq_zero_iff.mp (Nat.le_zero.mp hfuel)) (hne depth)
  | succ fuel => exact h depth fuel rest hrest hfuel

/-- Sound documents are read back, whatever follows them, with fuel for the length of their text. -/
theorem readsBack_of_isSound (j : Json) (h : j.isSound limit = true) : j.ReadsBack := by
  induction j using Json.ind generalizing limit with
  | null =>
    refine readsBack_of_succ (by simp [prettyAt]) fun _ _ _ _ _ => ?_
    simp [prettyAt, spanValue, skipBlank, isBlank]
  | bool b =>
    refine readsBack_of_succ (by cases b <;> simp [prettyAt]) fun _ _ _ _ _ => ?_
    cases b <;> simp [prettyAt, spanValue, skipBlank, isBlank]
  | number text =>
    have hliteral := literal?_of_isSound h
    refine readsBack_of_succ (fun _ hempty => ?_) fun _ fuel _ hrest _ => spanValue_number hliteral hrest fuel
    rw [literal?, show text.toList = [] from hempty] at hliteral
    cases hliteral
  | string escaped =>
    refine readsBack_of_succ (by simp [prettyAt]) fun _ _ rest _ _ => ?_
    simp [prettyAt, spanValue, skipBlank, isBlank, spanString_of_decode? h rest]
  | array items ih =>
    obtain ⟨limit, rfl⟩ : ∃ n, limit = n + 1 := by
      cases limit with
      | zero => cases h
      | succ n => exact ⟨n, rfl⟩
    rw [isSound_array] at h
    cases items with
    | nil =>
      refine readsBack_of_succ (by simp [prettyAt]) fun _ _ _ _ _ => ?_
      simp [prettyAt, spanValue, skipBlank, isBlank]
    | cons item items =>
      have htext (depth : Nat) : (prettyAt depth (.array (item :: items))).toList =
          '[' :: itemLines depth (item :: items) := by
        simp [prettyAt, itemLines, closedLines]
      refine readsBack_of_succ (by simp [htext]) fun depth fuel rest _ hfuel => ?_
      rw [htext] at hfuel ⊢
      rw [cons_append, spanValue_array, spanItems_itemLines depth
        (fun i hi => ih i hi (h i hi)) (Nat.le_of_succ_le_succ hfuel)]
      · rfl
      · intro rest'
        rw [itemLines_cons, append_assoc, append_assoc, skipBlank_newline]
        exact skipBlank_prettyAt _ (h item mem_cons_self) _ _
  | object entries ih =>
    obtain ⟨limit, rfl⟩ : ∃ n, limit = n + 1 := by
      cases limit with
      | zero => cases h
      | succ n => exact ⟨n, rfl⟩
    rw [isSound_object] at h
    cases entries with
    | nil =>
      refine readsBack_of_succ (by simp [prettyAt]) fun _ _ _ _ _ => ?_
      simp [prettyAt, spanValue, skipBlank, isBlank]
    | cons entry entries =>
      have htext (depth : Nat) : (prettyAt depth (.object (entry :: entries))).toList =
          '\x7b' :: entryLines depth (entry :: entries) := by
        simp [prettyAt, entryLines, closedLines]
      refine readsBack_of_succ (by simp [htext]) fun depth fuel rest _ hfuel => ?_
      rw [htext] at hfuel ⊢
      rw [cons_append, spanValue_object, spanEntries_entryLines depth
        (fun e he => ⟨(h e he).1, ih e he (h e he).2⟩) (Nat.le_of_succ_le_succ hfuel)]
      · rfl
      · intro rest'
        rw [entryLines_cons]
        simp only [append_assoc, skipBlank_newline]
        rw [cons_append, skipBlank_cons (by decide)]
        simp

/-- The text of a sound document is read back as the document. -/
theorem parse?_pretty {j : Json} (h : j.isSound limit = true) : parse? (pretty j) = some j := by
  have hspan := readsBack_of_isSound j h 0 ((pretty j).toList.length + 1) [] .nil (Nat.le_succ _)
  rw [append_nil] at hspan
  simp only [parse?, pretty] at hspan ⊢
  rw [hspan]
  rfl

/-! ## Parts -/

theorem mapM_eq_some_self_iff {α : Type} {f : α → Option α} {xs : List α} :
    xs.mapM f = some xs ↔ ∀ x ∈ xs, f x = some x := by
  induction xs with
  | nil => simp
  | cons x xs ih => simp [Option.bind_eq_some_iff, ih]

theorem mapM_eq_some_self {α : Type} {f : α → Option α} {xs : List α} (h : ∀ x ∈ xs, f x = some x) :
    xs.mapM f = some xs := mapM_eq_some_self_iff.mpr h

@[simp]
theorem text?_ofText (s : String) : (ofText s).text? = some s := decode?_encode s

@[simp]
theorem items?_array (items : List Json) : (Json.array items).items? = some items := rfl

@[simp]
theorem pair?_array (a b : Json) : (Json.array [a, b]).pair? = some (a, b) := rfl

@[simp]
theorem entries?_ofEntries (entries : List (String × Json)) : (ofEntries entries).entries? = some entries := by
  rw [ofEntries, entries?, mapM_map]
  exact mapM_eq_some_self fun entry _ => by simp [decode?_encode]

@[simp]
theorem choice?_ofText (s : String) : (ofText s).choice? = some (s, none) := by
  simp [ofText, choice?, decode?_encode]

@[simp]
theorem choice?_ofEntries (name : String) (content : Json) :
    (ofEntries [(name, content)]).choice? = some (name, some content) := by
  unfold choice? ofEntries
  dsimp only
  rw [← ofEntries, entries?_ofEntries]
  rfl

@[simp]
theorem bareChoice?_ofText (s : String) : (ofText s).bareChoice? = some s := by
  simp [bareChoice?]

def present : Option Json → Option Json
  | some .null => none
  | found => found

theorem nullable?_eq (entries : List (String × Json)) (key : String) :
    nullable? entries key = (optional? entries key).map present := rfl

@[simp]
theorem present_null : present (some .null) = none := rfl

@[simp]
theorem present_ofText (s : String) : present (some (ofText s)) = some (ofText s) := rfl

@[simp]
theorem present_ofEntries (entries : List (String × Json)) :
    present (some (ofEntries entries)) = some (ofEntries entries) := rfl

/-! ## Nesting -/

mutual

def nesting : Json → Nat
  | .array items => itemsNesting items + 1
  | .object entries => entriesNesting entries + 1
  | _ => 0

def itemsNesting : List Json → Nat
  | [] => 0
  | item :: items => max (nesting item) (itemsNesting items)

def entriesNesting : List (String × Json) → Nat
  | [] => 0
  | (_, value) :: entries => max (nesting value) (entriesNesting entries)

end

theorem nesting_array_le : (Json.array items).nesting ≤ limit + 1 ↔ ∀ item ∈ items, item.nesting ≤ limit := by
  rw [nesting, Nat.add_le_add_iff_right]
  induction items with
  | nil => simp [itemsNesting]
  | cons item items ih => rw [itemsNesting, Nat.max_le, ih, forall_mem_cons]

theorem nesting_object_le :
    (Json.object entries).nesting ≤ limit + 1 ↔ ∀ entry ∈ entries, entry.2.nesting ≤ limit := by
  rw [nesting, Nat.add_le_add_iff_right]
  induction entries with
  | nil => simp [entriesNesting]
  | cons entry entries ih =>
    obtain ⟨key, value⟩ := entry
    rw [entriesNesting, Nat.max_le, ih, forall_mem_cons]

theorem nesting_ofEntries_le :
    (ofEntries entries).nesting ≤ limit + 1 ↔ ∀ entry ∈ entries, entry.2.nesting ≤ limit := by
  rw [ofEntries, nesting_object_le]
  exact forall_mem_map

theorem nesting_lt_array (h : item ∈ items) : item.nesting < (Json.array items).nesting :=
  Nat.lt_succ_of_le (nesting_array_le.mp (Nat.le_refl _) item h)

theorem nesting_lt_ofEntries {key : String} {value : Json} (h : (key, value) ∈ entries) :
    value.nesting < (ofEntries entries).nesting :=
  Nat.lt_succ_of_le (nesting_ofEntries_le.mp (Nat.le_refl _) (key, value) h)

/-- The document is sound for every limit that its nesting is within. -/
def Sound (j : Json) : Prop := ∀ limit, j.nesting ≤ limit → j.isSound limit = true

theorem sound_null : Sound .null := fun _ _ => rfl

theorem sound_bool (b : Bool) : Sound (.bool b) := fun _ _ => rfl

theorem sound_ofText (s : String) : Sound (ofText s) := fun _ _ => by
  rw [ofText, isSound, decode?_encode]
  rfl

theorem sound_number {x : Float} (h : (Json.number text).float? = some x) : Sound (.number text) :=
  fun _ _ => by
  rw [isSound]
  exact Option.isSome_of_eq_some h

theorem sound_ofNat {n : Nat} (h : n ≤ maxSignificand) : Sound (ofNat n) := sound_number (float?_ofNat h)

theorem sound_array (h : ∀ item ∈ items, Sound item) : Sound (.array items) := by
  intro limit hlimit
  cases limit with
  | zero => cases hlimit
  | succ limit =>
    rw [isSound_array]
    exact fun item hitem => h item hitem limit (nesting_array_le.mp hlimit item hitem)

theorem sound_ofEntries (h : ∀ entry ∈ entries, Sound entry.2) : Sound (ofEntries entries) := by
  intro limit hlimit
  cases limit with
  | zero => cases hlimit
  | succ limit =>
    rw [nesting_ofEntries_le] at hlimit
    rw [ofEntries, isSound_object]
    simp only [mem_map]
    rintro _ ⟨entry, hentry, rfl⟩
    exact ⟨by rw [decode?_encode]; rfl, h entry hentry limit (hlimit entry hentry)⟩

end Motif.Json
