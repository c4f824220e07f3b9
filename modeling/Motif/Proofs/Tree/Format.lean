import Motif.Proofs.Json.Documents
import Motif.Proofs.Pipeline.Passes

/-!
# Trees, read back from their documents

A tree that is written and read again is the tree it was, with its ids, its spans and its next free id.
Every number in its literals has to be finite and has to be read back from its own text, and the document
may not nest deeper than the reader goes; ids have 32 bits and positions 64.
-/

namespace Motif

open List

variable {n : Node} {x : Float}

theorem find?_key {α : Type} {key : α → String} {xs : List α} (h : (xs.map key).Nodup) {a : α}
    (ha : a ∈ xs) : xs.find? (fun x => key x == key a) = some a := by
  induction xs with
  | nil => cases ha
  | cons x xs ih =>
    obtain ⟨hx, hxs⟩ := nodup_cons.mp h
    rcases mem_cons.mp ha with rfl | ha
    · simp
    · have hne : key x ≠ key a := fun heq => hx (heq ▸ mem_map_of_mem ha)
      rw [find?_cons_of_neg (by simpa using hne)]
      exact ih hxs ha

theorem Tag.ofKey?_key (tag : Tag) : Tag.ofKey? tag.key = some tag :=
  find?_key (by decide +kernel) (by cases tag <;> decide)

@[simp]
theorem UnaryOp.ofName?_name (op : UnaryOp) : UnaryOp.ofName? op.name = some op := by
  cases op <;> decide

@[simp]
theorem BinaryOp.ofName?_name (op : BinaryOp) : BinaryOp.ofName? op.name = some op := by
  cases op <;> decide

@[simp]
theorem Resolver.ofName?_name (r : Resolver) : Resolver.ofName? r.name = some r := by
  cases r <;> decide

namespace Value

/-- Induction over values: what holds of a collection if it holds of its members holds of all. -/
theorem ind {P : Value → Prop} (nothing : P .nothing) (null : P .null) (bool : ∀ b, P (.bool b))
    (number : ∀ x, P (.number x)) (string : ∀ s, P (.string s))
    (array : ∀ items, (∀ item ∈ items, P item) → P (.array items))
    (object : ∀ entries, (∀ entry ∈ entries, P entry.2) → P (.object entries)) : ∀ v, P v
  | .nothing => nothing
  | .null => null
  | .bool b => bool b
  | .number x => number x
  | .string s => string s
  | .array items => array items fun item _ => ind nothing null bool number string array object item
  | .object entries =>
    object entries fun entry _ => ind nothing null bool number string array object entry.2
termination_by v => sizeOf v
decreasing_by
  · have := sizeOf_lt_of_mem ‹_›
    simp only [Value.array.sizeOf_spec]
    omega
  · have := sizeOf_lt_of_mem ‹_›
    obtain ⟨key, value⟩ := entry
    simp only [Value.object.sizeOf_spec, Prod.mk.sizeOf_spec] at *
    omega

mutual

def numbers : Value → List Float
  | .number x => [x]
  | .array items => itemsNumbers items
  | .object entries => entriesNumbers entries
  | _ => []

def itemsNumbers : List Value → List Float
  | [] => []
  | v :: vs => numbers v ++ itemsNumbers vs

def entriesNumbers : List (String × Value) → List Float
  | [] => []
  | (_, v) :: entries => numbers v ++ entriesNumbers entries

end

theorem mem_itemsNumbers {items : List Value} : x ∈ itemsNumbers items ↔ ∃ item ∈ items, x ∈ item.numbers := by
  induction items with
  | nil => simp [itemsNumbers]
  | cons v vs ih => simp [itemsNumbers, ih]

theorem mem_entriesNumbers {entries : List (String × Value)} :
    x ∈ entriesNumbers entries ↔ ∃ entry ∈ entries, x ∈ entry.2.numbers := by
  induction entries with
  | nil => simp [entriesNumbers]
  | cons entry entries ih =>
    obtain ⟨key, v⟩ := entry
    simp [entriesNumbers, ih]

end Value

namespace Format

open Json

@[simp]
theorem readTarget?_target (t : Target) : readTarget? (target t) = some t := by
  cases t <;> simp [target, readTarget?, mapM_eq_some_self]

@[simp]
theorem readItem?_item (i : ModuleItem) : readItem? (item i) = some i := by
  obtain ⟨name, _ | otherName⟩ := i <;>
    simp [item, readItem?, nullable?_eq, optional?, field?]

/-! ## Values -/

theorem valueItems_eq (format : Format) (items : List Value) :
    valueItems format items = items.map (value format) := by
  induction items with
  | nil => rfl
  | cons v vs ih => rw [valueItems, ih, map_cons]

theorem valueEntries_eq (format : Format) (entries : List (String × Value)) : valueEntries format entries =
      entries.map fun entry => Json.array [.ofText entry.1, value format entry.2] := by
  induction entries with
  | nil => rfl
  | cons entry entries ih => rw [valueEntries, ih, map_cons]

def ReadsBack (x : Float) : Prop :=
  ∃ text, Number.jsonText? x = some text ∧ (Json.number text).float? = some x

theorem number_of_readsBack (h : ReadsBack x) :
    ∃ text, document.number x = .number text ∧ (Json.number text).float? = some x := by
  obtain ⟨text, htext, hread⟩ := h
  refine ⟨text, ?_, hread⟩
  show ((Number.jsonText? x).map Json.number).getD .null = _
  rw [htext]
  rfl

theorem readValue?_value {v : Value} (h : ∀ x ∈ v.numbers, ReadsBack x) {depth : Nat}
    (hdepth : (value document v).nesting < depth) : readValue? depth (value document v) = some v := by
  induction v using Value.ind generalizing depth with
  | nothing | null | string s | bool b =>
    cases depth with
    | zero => cases hdepth
    | succ depth => simp [value, readValue?, bool?]
  | number x =>
    obtain ⟨text, htext, hread⟩ := number_of_readsBack (h x (by simp [Value.numbers]))
    cases depth with
    | zero => cases hdepth
    | succ depth => simp [value, readValue?, htext, hread]
  | array items ih =>
    rw [value, valueItems_eq] at hdepth ⊢
    obtain _ | depth := depth
    · cases hdepth
    · have hitems : ∀ item ∈ items, readValue? depth (value document item) = some item := by
        intro item hitem
        have hitem_lt := nesting_lt_array (mem_map_of_mem (f := value document) hitem)
        have hlist_lt := nesting_lt_ofEntries (mem_singleton_self
          ("Array", Json.array (items.map (value document))))
        exact ih item hitem (fun x hx => h x (Value.mem_itemsNumbers.mpr ⟨item, hitem, hx⟩)) (by omega)
      have hread : items.mapM ((fun item => readValue? depth item) ∘ value document) = some items :=
        mapM_eq_some_self hitems
      simp [readValue?, hread]
  | object entries ih =>
    rw [value, valueEntries_eq] at hdepth ⊢
    obtain _ | depth := depth
    · cases hdepth
    · have hentries : ∀ entry ∈ entries, readValue? depth (value document entry.2) = some entry.2 := by
        intro entry hentry
        have hvalue_lt := nesting_lt_array (mem_cons_of_mem (Json.ofText entry.1)
          (mem_singleton_self (value document entry.2)))
        have hentry_lt := nesting_lt_array (mem_map_of_mem
          (f := fun entry => Json.array [.ofText entry.1, value document entry.2]) hentry)
        have hlist_lt := nesting_lt_ofEntries (mem_singleton_self ("Object", Json.array
          (entries.map fun entry => Json.array [.ofText entry.1, value document entry.2])))
        exact ih entry hentry (fun x hx => h x (Value.mem_entriesNumbers.mpr ⟨entry, hentry, hx⟩))
          (by omega)
      simp only [readValue?, choice?_ofEntries, items?_array, mapM_map, Option.bind_eq_bind,
        Option.bind_some, Option.pure_def]
      rw [mapM_eq_some_self fun entry hentry => by simp [hentries entry hentry]]
      rfl

/-! ## Kinds -/

theorem readKind?_fields {read : Json → Option Node} {write : Node → Json} {tag : Json}
    {k : Kind Node} (hwrite : ∀ c, present (some (write c)) = some (write c))
    (hread : ∀ c ∈ k.children, read (write c) = some c)
    (hvalue : ∀ v, k = .literal v → readValue? 128 (value document v) = some v) :
    readKind? read k.tag (("tag", tag) :: fields document (k.map write)) = some k := by
  have hitems (items : List ModuleItem) : items.mapM (readItem? ∘ item) = some items :=
    mapM_eq_some_self fun i _ => readItem?_item i
  -- An equation for each list of children: a field with a list is read by rewriting with it.
  have hlist (xs : List Node) : (∀ c ∈ xs, read (write c) = some c) ↔ xs.mapM (read ∘ write) = some xs :=
    mapM_eq_some_self_iff.symm
  cases k with
  | range _ _ o | function _ _ o | element o | param _ o _ | exported o _ =>
    cases o <;>
      simp only [Kind.children, Option.toList, forall_mem_cons, forall_mem_append, hlist] at hread <;>
      simp [*, -hlist, Kind.tag, Kind.map, fields, readKind?, field?, nullable?_eq, optional?, bool?]
  | _ =>
    simp only [Kind.children, forall_mem_cons, forall_mem_append, hlist] at hread
    simp [*, -hlist, Kind.tag, Kind.map, fields, readKind?, field?]

theorem field?_tag (tag : Json) (k : Kind Json) :
    field? (("tag", tag) :: fields document k) "tag" = some tag := by
  have hnone : (fields document k).filter (fun entry => entry.1 == "tag") = [] := by
    cases k <;> rfl
  simp [field?, hnone]

theorem sound_value {v : Value} (h : ∀ x ∈ v.numbers, ReadsBack x) : Sound (value document v) := by
  have hone {key : String} {content : Json} (hcontent : Sound content) :
      Sound (ofEntries [(key, content)]) :=
    sound_ofEntries fun entry hentry => by rwa [mem_singleton.mp hentry]
  induction v using Value.ind with
  | nothing => exact sound_ofText _
  | null => exact sound_ofText _
  | bool b => exact hone (sound_bool b)
  | number x =>
    obtain ⟨text, htext, hread⟩ := number_of_readsBack (h x (by simp [Value.numbers]))
    rw [value, htext]
    exact hone (sound_number hread)
  | string s => exact hone (sound_ofText s)
  | array items ih =>
    rw [value, valueItems_eq]
    refine hone (sound_array ?_)
    simp only [mem_map]
    rintro _ ⟨item, hitem, rfl⟩
    exact ih item hitem fun x hx => h x (Value.mem_itemsNumbers.mpr ⟨item, hitem, hx⟩)
  | object entries ih =>
    rw [value, valueEntries_eq]
    refine hone (sound_array ?_)
    simp only [mem_map]
    rintro _ ⟨entry, hentry, rfl⟩
    have hvalue := ih entry hentry fun x hx => h x (Value.mem_entriesNumbers.mpr ⟨entry, hentry, hx⟩)
    exact sound_array (by simpa using ⟨sound_ofText entry.1, hvalue⟩)

theorem sound_target (t : Target) : Sound (target t) := by
  cases t with
  | name name => exact sound_ofEntries (by simp [sound_ofText])
  | array names => exact sound_ofEntries (by simp [sound_array, sound_ofText])
  | object names =>
    have hpair (n : String × String) : Sound (.array [.ofText n.1, .ofText n.2]) :=
      sound_array (by simp [sound_ofText])
    refine sound_ofEntries ?_
    simp only [mem_singleton, forall_eq]
    exact sound_array (forall_mem_map.mpr fun n _ => hpair n)

theorem sound_item (i : ModuleItem) : Sound (item i) := by
  obtain ⟨name, _ | otherName⟩ := i <;>
    exact sound_ofEntries (by simp [sound_ofText, sound_null])

theorem sound_getD {o : Option Json} (h : ∀ j, o = some j → Sound j) : Sound (o.getD .null) := by
  cases o with
  | none => exact sound_null
  | some j => exact h j rfl

theorem sound_fields {k : Kind Json} (h : ∀ j ∈ k.children, Sound j)
    (hvalue : ∀ v, k = .literal v → Sound (value document v)) :
    ∀ entry ∈ fields document k, Sound entry.2 := by
  cases k <;>
    simp_all [fields, sound_ofText, sound_bool, sound_array, sound_target, sound_item, sound_getD]

theorem nesting_child_le {k : Kind Json} {limit : Nat}
    (h : ∀ entry ∈ fields document k, entry.2.nesting ≤ limit) : ∀ j ∈ k.children, j.nesting ≤ limit := by
  intro j hj
  have hlist (items : List Json) (hitems : (Json.array items).nesting ≤ limit) (hitem : j ∈ items) :
      j.nesting ≤ limit := Nat.le_trans (Nat.le_of_lt (nesting_lt_array hitem)) hitems
  have hoption (o : Option Json) (ho : (o.getD .null).nesting ≤ limit) (hj : o = some j) :
      j.nesting ≤ limit := by rwa [hj] at ho
  cases k <;>
    simp only [fields, Kind.children, forall_eq_or_imp, forall_eq, mem_cons, mem_append,
      Option.mem_toList, not_mem_nil, or_false] at h hj <;>
    grind

theorem node_eq (n : Node) :
    node document n = ofEntries [("id", .ofNat n.id), ("span", span n.span),
      ("kind", ofEntries (("tag", .ofText n.kind.tag.key) ::
        fields document (n.kind.map (node document))))] := by
  have htag (k : Kind Node) : (k.map (node document)).tag = k.tag := by cases k <;> rfl
  rw [← htag]
  exact Node.fold_eq _ n

/-- The numbers that can be written: of a node and its positions, and those in its literals. -/
structure Writable (n : Node) : Prop where
  id : n.id ≤ Nat.pow 2 32 - 1
  start : n.span.start ≤ maxSignificand
  stop : n.span.stop ≤ maxSignificand
  line : n.span.line ≤ maxSignificand
  column : n.span.column ≤ maxSignificand
  literals : ∀ v, n.kind = .literal v → ∀ x ∈ v.numbers, ReadsBack x

theorem sound_span (h : Writable n) : Sound (span n.span) :=
  sound_ofEntries (by simp [sound_ofNat, h.start, h.stop, h.line, h.column])

theorem sound_node (h : n.Everywhere Writable) : Sound (node document n) := by
  induction n using Node.ind with
  | step n ih =>
    have hn := h.here
    have hid : n.id ≤ maxSignificand := Nat.le_trans hn.id (by decide)
    have hfields := sound_fields (k := n.kind.map (node document))
      (by
        simp only [Kind.children_map, mem_map]
        rintro _ ⟨c, hc, rfl⟩
        exact ih c hc (h.child hc))
      (by
        intro v hv
        refine sound_value (hn.literals v ?_)
        cases hkind : n.kind <;> rw [hkind] at hv <;> cases hv
        rfl)
    rw [node_eq]
    refine sound_ofEntries ?_
    simp only [mem_cons, not_mem_nil, or_false, forall_eq_or_imp, forall_eq]
    refine ⟨sound_ofNat hid, sound_span hn, sound_ofEntries ?_⟩
    simp only [mem_cons, forall_eq_or_imp]
    exact ⟨sound_ofText _, hfields⟩

theorem readSpan?_span (h : Writable n) : readSpan? (span n.span) = some n.span := by
  simp [readSpan?, span, field?, natUpTo?, nat?_ofNat, h.start, h.stop, h.line, h.column]

theorem readNode?_node (h : n.Everywhere Writable) {depth : Nat} (inside : Bool)
    (hdepth : (node document n).nesting ≤ depth) (hlimit : depth ≤ 128) :
    readNode? inside depth (node document n) = some n := by
  induction n using Node.ind generalizing depth inside with
  | step n ih =>
    have hn := h.here
    have hid : n.id ≤ maxSignificand := Nat.le_trans hn.id (by decide)
    rw [node_eq] at hdepth ⊢
    generalize hkind : ofEntries (("tag", .ofText n.kind.tag.key) ::
      fields document (n.kind.map (node document))) = kind at hdepth ⊢
    have hmem : ("kind", kind) ∈ [("id", .ofNat n.id), ("span", span n.span), ("kind", kind)] := by
      simp
    have hkind_lt := Nat.lt_of_lt_of_le (nesting_lt_ofEntries hmem) hdepth
    have hfields : ∀ entry ∈ fields document (n.kind.map (node document)),
        entry.2.nesting ≤ depth - 2 := by
      rintro ⟨key, j⟩ hentry
      have hlt := nesting_lt_ofEntries
        (mem_cons_of_mem ("tag", Json.ofText n.kind.tag.key) hentry)
      rw [hkind] at hlt
      show j.nesting ≤ depth - 2
      omega
    have hread : readKind? (readNode? true (depth - 1)) n.kind.tag
        (("tag", .ofText n.kind.tag.key) :: fields document (n.kind.map (node document))) =
          some n.kind := by
      refine readKind?_fields (fun c => by rw [node_eq]; rfl) (fun c hc => ?_) (fun v hv => ?_)
      · have hle := nesting_child_le hfields (node document c)
          (by rw [Kind.children_map]; exact mem_map_of_mem hc)
        exact ih c hc (h.child hc) true (by omega) (by omega)
      · have hle := hfields ("value", value document v) (by rw [hv]; simp [Kind.map, fields])
        simp only at hle
        exact readValue?_value (hn.literals v hv) (by omega)
    obtain _ | depth := depth
    · cases hdepth
    · rw [Nat.add_sub_cancel] at hread
      have hidField : natUpTo? (Nat.pow 2 32 - 1) (.ofNat n.id) = some n.id := by
        rw [natUpTo?, nat?_ofNat hid]
        exact if_pos hn.id
      have htag : readTag? inside (.ofText n.kind.tag.key) = some n.kind.tag := by
        rw [readTag?, text?_ofText]
        exact Tag.ofKey?_key _
      have hentries : kind.entries? = some (("tag", .ofText n.kind.tag.key) ::
          fields document (n.kind.map (node document))) := by rw [← hkind, entries?_ofEntries]
      have hfield : field? [("id", .ofNat n.id), ("span", span n.span), ("kind", kind)] "kind" =
          some kind := by simp [field?]
      have heta : n = ⟨n.id, n.span, n.kind⟩ := by cases n; rfl
      rw [show some n = some ⟨n.id, n.span, n.kind⟩ from congrArg some heta]
      simp [readNode?, optional?, hfield, hidField, readSpan?_span hn, hentries, field?_tag, htag,
        hread]

end Format

/-! ## Trees -/

def Node.numbers (n : Node) : List Float := n.preorder.flatMap fun m => (m.literal?.map Value.numbers).getD []

def Span.Fits (s : Span) : Prop :=
  s.start < UInt64.size ∧ s.stop < UInt64.size ∧ s.line < UInt64.size ∧ s.column < UInt64.size

instance : DecidablePred Span.Fits := fun _ => inferInstanceAs (Decidable (_ ∧ _))

theorem Format.readsBack_of_isFinite (hfinite : Number.isFinite x = true)
    (hread : ∀ text, Number.jsonText? x = some text → (Json.number text).float? = some x) : ReadsBack x := by
  unfold Number.isFinite at hfinite
  split at hfinite
  · next hparts =>
    have htext : ∃ text, Number.jsonText? x = some text := ⟨_, by rw [Number.jsonText?, hparts]⟩
    obtain ⟨text, htext⟩ := htext
    exact ⟨text, htext, hread text htext⟩
  · cases hfinite

namespace Tree

theorem writable {root : Node} (hids : (ofRoot root).nextId ≤ UInt32.size) (hspan : n.span.Fits)
    (hmem : n ∈ (ofRoot root).root.preorder)
    (hnumbers : ∀ x ∈ (ofRoot root).root.numbers, Format.ReadsBack x) : Format.Writable n where
  id := by
    have hlt := (distinct_ids root).lt n.id (mem_map_of_mem hmem)
    exact Nat.le_sub_one_of_lt (Nat.lt_of_lt_of_le hlt hids)
  start := Nat.le_sub_one_of_lt hspan.1
  stop := Nat.le_sub_one_of_lt hspan.2.1
  line := Nat.le_sub_one_of_lt hspan.2.2.1
  column := Nat.le_sub_one_of_lt hspan.2.2.2
  literals := by
    intro v hv x hx
    refine hnumbers x (mem_flatMap.mpr ⟨n, hmem, ?_⟩)
    rw [Node.literal?, hv]
    exact hx

theorem ofDocument?_node (hsound : (Format.document.node n).isSound nestingLimit = true)
    (hnode : Format.readNode? false (nestingLimit + 1) (Format.document.node n) = some n) :
    ofDocument? (Format.document.node n) = some (ofRoot n) := by
  obtain ⟨kind, hentries⟩ : ∃ kind, Format.document.node n =
      .ofEntries [("id", .ofNat n.id), ("span", Format.span n.span), ("kind", kind)] :=
    ⟨_, Format.node_eq n⟩
  have hfield : Json.field? [("id", .ofNat n.id), ("span", Format.span n.span), ("kind", kind)]
      "kind" = some kind := by simp [Json.field?]
  have hkind : kind.isSound (nestingLimit - 1) = true := by
    rw [hentries, Json.ofEntries] at hsound
    exact (Json.isSound_object.mp hsound (Text.Quoted.encode "kind", kind) (by simp)).2
  rw [ofDocument?, hnode, hentries]
  simp [hfield, hkind]

/-- A tree is read back from its text as it was. -/
theorem parse?_render {t : Tree} (ht : t.Built) (hids : t.nextId ≤ UInt32.size)
    (hspans : t.root.Everywhere fun n => n.span.Fits)
    (hfinite : ∀ x ∈ t.root.numbers, Number.isFinite x = true)
    (hread : ∀ x ∈ t.root.numbers, ∀ text, Number.jsonText? x = some text → (Json.number text).float? = some x)
    (hnesting : (Format.document.node t.root).nesting ≤ nestingLimit) : parse? t.render = some t := by
  obtain ⟨root, rfl⟩ := ht.exists_root
  have hwritable : (ofRoot root).root.Everywhere Format.Writable := fun n hn =>
    writable hids (hspans n hn) hn fun x hx => Format.readsBack_of_isFinite (hfinite x hx) (hread x hx)
  have hsound := Format.sound_node hwritable nestingLimit hnesting
  have hnode := Format.readNode?_node hwritable false (Nat.le_succ_of_le hnesting) (Nat.le_refl 128)
  rw [parse?, render, Json.parse?_pretty hsound, Option.bind_some, ofDocument?_node hsound hnode,
    ofRoot_root]

/-- A function with a guarded loop over a literal, text that has to be escaped, and a default that is
    absent: lists, options, targets, values and names of operators are all written and read. -/
def letterBody : List Node :=
  let name (s : String) : Node := .ofKind (.ident s)
  let prices : Value :=
    .array [.number 0.1, .number (-2.5e-7), .object [("tax", .number 19), ("\u00e4\n", .nothing)]]
  let overTax : Node := .ofKind (.binary .gt (name "price") (.ofKind (.literal (.string "\"\\\t"))))
  [.ofKind (.function "total" [.ofKind (.param "rest" none true)] none
      [.ofKind (.loop
        [.ofKind (.range (.object [("tax", "price")]) (.ofKind (.literal prices)) (some overTax))]
        [.ofKind (.ret (.ofKind (.await .all (name "price"))))] [])]),
    .ofKind (.exported none [⟨"total", some "sum"⟩, ⟨"tax", none⟩])]

theorem parse?_render_letter : (ofBody letterBody).root.numbers = [0.1, -2.5e-7, 19] ∧
      parse? (ofBody letterBody).render = some (ofBody letterBody) :=
  ⟨by decide +kernel, parse?_render (.body letterBody) (by decide +kernel) (by decide +kernel)
    (by decide +kernel) (by decide +kernel) (by decide +kernel)⟩

end Tree

end Motif
