import Mathlib.Data.Prod.Basic
import TransposedViews.Proofs.Grouping
import TransposedViews.Proofs.Overwriting

/-!
Where a matrix keeps its entries. Every way of storing a matrix keeps each
entry in a cell of its own and has a position for every cell, whatever is in
it. Changing entries by their positions is therefore changing cells, and the
cells that a traversal overwrites are known by the positions it reports.
-/

namespace TransposedViews

open UniformCells

def IndexedEntry.position (e : IndexedEntry α) : Nat × Nat := (e.row, e.col)

/-- Changes the entries at the given positions and keeps the others. -/
def overwriting (f : Nat → Nat → α → α) (positions : List (Nat × Nat)) (i j : Nat) (x : α) : α :=
  if (i, j) ∈ positions then f i j x else x

section Layouts

variable {S : Type u} {κ : Type v} {α : Type w} [Cells S κ α] {position : κ → Nat × Nat} {s : S}
  {items visited : List (α × κ)}

/-- What is in a cell, at the position of the cell. -/
def entryAt (position : κ → Nat × Nat) (p : α × κ) : IndexedEntry α :=
  ⟨(position p.2).1, (position p.2).2, p.1⟩

/-- The items are what is in all cells of a store, and no two cells have the
same position. -/
structure Layout (position : κ → Nat × Nat) (s : S) (items : List (α × κ)) : Prop where
  read_iff : ∀ c x, Cells.read s c = some x ↔ (x, c) ∈ items
  distinct : (items.map fun p => position p.2).Nodup

/-- The same cells in another frame. -/
theorem Layout.framed (h : Layout position s items) {frame : Nat × Nat → Nat × Nat}
    (hframe : Function.Injective frame) : Layout (fun c => frame (position c)) s items where
  read_iff := h.read_iff
  distinct := by
    have hframed := h.distinct.map hframe
    rwa [List.map_map] at hframed

theorem Layout.items_nodup (h : Layout position s items) : items.Nodup := h.distinct.of_map _

theorem Layout.eq_of_position (h : Layout position s items) {p q : α × κ} (hp : p ∈ items)
    (hq : q ∈ items) (heq : position p.2 = position q.2) : p = q :=
  List.inj_on_of_nodup_map h.distinct hp hq heq

theorem Layout.contents (h : Layout position s items) (hsub : visited ⊆ items)
    (hnodup : visited.Nodup) : Contents s visited where
  distinct := by
    refine hnodup.map_on fun p hp q hq heq => ?_
    exact h.eq_of_position (hsub hp) (hsub hq) (congrArg position heq)
  read_eq p hp := (h.read_iff p.2 p.1).mpr (hsub hp)

/-- Parts of lines, each line selected by a key of the position, have no cell
in common. -/
theorem Layout.contents_lines (h : Layout position s items) (key : Nat × Nat → Nat) (count : Nat)
    {line : Nat → List (α × κ)}
    (hline : ∀ i, (line i).Sublist (items.filter fun p => key (position p.2) = i)) :
    Contents s ((List.range count).flatMap line) := by
  have hmem : ∀ i, ∀ p ∈ line i, p ∈ items ∧ key (position p.2) = i := by
    intro i p hp
    have hfilter := List.mem_filter.mp ((hline i).subset hp)
    exact ⟨hfilter.1, of_decide_eq_true hfilter.2⟩
  apply h.contents
  · intro p hp
    obtain ⟨i, -, hi⟩ := List.mem_flatMap.mp hp
    exact (hmem i p hi).1
  · refine List.nodup_flatMap.mpr ⟨fun i _ => (h.items_nodup.filter _).sublist (hline i), ?_⟩
    refine List.nodup_range.imp fun hne => ?_
    intro p hp hp'
    exact hne ((hmem _ p hp).2.symm.trans (hmem _ p hp').2)

variable [DecidableEq κ] [UniformCells S κ α]

/-- Changes everything in a store, by the positions of the cells. -/
def mapPositions (position : κ → Nat × Nat) (g : Nat → Nat → α → α) (s : S) : S :=
  mapCells (fun c => g (position c).1 (position c).2) s

theorem mapPositions_mapPositions (position : κ → Nat × Nat) (g g' : Nat → Nat → α → α) (s : S) :
    mapPositions position g' (mapPositions position g s) =
      mapPositions position (fun i j x => g' i j (g i j x)) s :=
  mapCells_mapCells _ _ s

theorem Layout.mapPositions_congr (h : Layout position s items) {g g' : Nat → Nat → α → α}
    (hsame : ∀ p ∈ items, g (position p.2).1 (position p.2).2 p.1 =
      g' (position p.2).1 (position p.2).2 p.1) :
    mapPositions position g s = mapPositions position g' s :=
  mapCells_congr fun c x hread => hsame (x, c) ((h.read_iff c x).mp hread)

/-- Overwriting cells is overwriting at their positions. -/
theorem Layout.overwrite_eq (h : Layout position s items) (f : Nat → Nat → α → α)
    (hsub : visited ⊆ items) :
    overwrite (fun c => f (position c).1 (position c).2) (visited.map Prod.snd) s =
      mapPositions position
        (overwriting f ((visited.map (entryAt position)).map IndexedEntry.position)) s := by
  refine mapCells_congr fun c x hread => ?_
  have hc : (x, c) ∈ items := (h.read_iff c x).mp hread
  have hiff : c ∈ visited.map Prod.snd ↔
      position c ∈ (visited.map (entryAt position)).map IndexedEntry.position := by
    simp only [List.map_map, List.mem_map]
    constructor
    · rintro ⟨p, hp, rfl⟩
      exact ⟨p, hp, rfl⟩
    · rintro ⟨p, hp, heq⟩
      have hsame : p = (x, c) := h.eq_of_position (hsub hp) hc heq
      exact ⟨p, hp, congrArg Prod.snd hsame⟩
  simp only [overwriting, hiff]

/-- Writing what `f` makes of an entry into its cell. -/
theorem Layout.write_eq (h : Layout position s items) (f : Nat → Nat → α → α) {c : κ} {x : α}
    (hc : (x, c) ∈ items) :
    Cells.write s c (f (position c).1 (position c).2 x) =
      mapPositions position (overwriting f [position c]) s := by
  have hread := (h.read_iff c x).mpr hc
  have hsub : [(x, c)] ⊆ items := by simpa using hc
  exact (overwrite_singleton hread).symm.trans (h.overwrite_eq f hsub)

end Layouts

section Visits

variable {S : Type u} {κ : Type v} {α : Type w} [DecidableEq κ] [Cells S κ α] [UniformCells S κ α]
  {position : κ → Nat × Nat} {s : S} {items visited : List (α × κ)}

/-- Requests that replace the given entries, for a traversal that comes to
them in this order. What is written is made of the position and the value that
the reply to the same request reports. -/
def replacements (f : Nat → Nat → α → α) (entries : List (IndexedEntry α)) : List (Request α) :=
  entries.map fun e => .next (some (f e.row e.col e.value))

/-- Replies that report the given entries, labelled by their positions. -/
def reports (label : Nat × Nat → ι) (entries : List (IndexedEntry α)) : List (Reply ι α) :=
  entries.map fun e => .item (label e.position) e.value

/-- A traversal of the cells in order, as far as it goes, overwrites what it
reports. -/
theorem Layout.run_overwrites [Cursor σ (ι × κ)] {cursor : σ} {entries : List (IndexedEntry α)}
    (h : Layout position s items) (hentries : entries = items.map (entryAt position))
    (label : Nat × Nat → ι) (f : Nat → Nat → α → α) (n : Nat)
    (hcursor : Cursor.toList cursor = items.map fun p => (label (position p.2), p.2)) :
    ∃ cursor', Script.run (replacements f (entries.take n)) cursor s =
      (reports label (entries.take n), cursor', mapPositions position
        (overwriting f ((entries.take n).map IndexedEntry.position)) s) := by
  have hsub : (items.take n).Sublist items := List.take_sublist n items
  have hcontents := h.contents hsub.subset (h.items_nodup.sublist hsub)
  have hbegins : ((items.take n).map fun p => (label (position p.2), p.2)) <+:
      Cursor.toList cursor := by
    rw [hcursor]
    exact (List.take_prefix n items).map _
  rw [hentries, ← List.map_take, ← h.overwrite_eq f hsub.subset, replacements, reports,
    List.map_map, List.map_map]
  exact Script.run_overwrites (fun c => label (position c))
    (fun c => f (position c).1 (position c).2) hcontents hbegins

/-- The ways in which lines let their entries be replaced: by index in a
slice, item by item in a walk over values or over pairs, or in one walk that
leaves a sparse line behind or uses it up. -/
inductive LineWriter where
  | slice
  | values
  | pairs
  | walk
  | consume
  deriving DecidableEq, Repr

namespace LineWriter

variable {α : Type w}

/-- The script that replaces the given entries of one line. The index of an
entry in its line is taken from its position. -/
def script (index : Nat × Nat → Nat) (f : Nat → Nat → α → α) (entries : List (IndexedEntry α)) :
    LineWriter → LineScript α
  | .slice => entries.map fun e => .set (index e.position) (f e.row e.col e.value)
  | .values | .pairs => entries.map fun e => .next (some (f e.row e.col e.value))
  | .walk => [.walk (replacements f entries)]
  | .consume => [.consume (replacements f entries)]

/-- The replies that report the values before they were replaced, with their
indices if the line knows them. -/
def replies (index : Nat × Nat → Nat) (entries : List (IndexedEntry α)) :
    LineWriter → List (LineReply α)
  | .slice => entries.map fun e => .value (some e.value)
  | .values => entries.map fun e => .item (.value e.value)
  | .pairs => entries.map fun e => .item (.stored (index e.position) e.value)
  | .walk | .consume => [.replies (reports index entries)]

end LineWriter

end Visits

section Lines

variable {α : Type u}

/-- The first entries of a line, as many as are counted for it. The line of an
entry is taken from its position. -/
def linePart (key : Nat × Nat → Nat) (entries : List (IndexedEntry α)) (count : Nat → Nat)
    (i : Nat) : List (IndexedEntry α) :=
  (entries.filter fun e => key e.position = i).take (count i)

/-- Such parts of the first `k` lines, one line after the other. -/
def lineParts (key : Nat × Nat → Nat) (entries : List (IndexedEntry α)) (count : Nat → Nat)
    (k : Nat) : List (IndexedEntry α) :=
  (List.range k).flatMap (linePart key entries count)

namespace LineWriter

/-- For each of the first `k` lines the script that replaces its part. -/
def scripts (writer : LineWriter) (key index : Nat × Nat → Nat) (f : Nat → Nat → α → α)
    (entries : List (IndexedEntry α)) (count : Nat → Nat) (k : Nat) : List (LineScript α) :=
  (List.range k).map fun i => writer.script index f (linePart key entries count i)

/-- For each of the first `k` lines the replies that report its part. -/
def lineReplies (writer : LineWriter) (key index : Nat × Nat → Nat)
    (entries : List (IndexedEntry α)) (count : Nat → Nat) (k : Nat) : List (List (LineReply α)) :=
  (List.range k).map fun i => writer.replies index (linePart key entries count i)

end LineWriter

variable {S : Type v} {κ : Type w} [Cells S κ α] {position : κ → Nat × Nat} {s : S}
  {items : List (α × κ)}

theorem linePart_map (key : Nat × Nat → Nat) (position : κ → Nat × Nat) (items : List (α × κ))
    (count : Nat → Nat) (i : Nat) :
    linePart key (items.map (entryAt position)) count i =
      ((items.filter fun p => key (position p.2) = i).take (count i)).map (entryAt position) := by
  rw [linePart, List.filter_map, List.map_take]
  rfl

variable [DecidableEq κ] [UniformCells S κ α]

/-- Editing a line of a store by the script for any first entries of the line
overwrites these, whatever was overwritten elsewhere before. -/
def EditOverwrites (position : κ → Nat × Nat) (s : S) (index : Nat × Nat → Nat)
    (f : Nat → Nat → α → α) (writer : LineWriter)
    (edit : LineScript α → S → Except Fault (List (LineReply α)) × S) (line : List (α × κ)) :
    Prop :=
  ∀ visited, visited <+: line → ∀ t : S, Recast s t → Contents t visited →
    edit (writer.script index f (visited.map (entryAt position))) t =
      (.ok (writer.replies index (visited.map (entryAt position))),
        overwrite (fun c => f (position c).1 (position c).2) (visited.map Prod.snd) t)

/-- One script per line, for the first lines and in each of them for its first
entries. -/
theorem Layout.runLines_overwrites {ι : Type x} [Cursor σ ι] {cursor : σ}
    {entries : List (IndexedEntry α)} (h : Layout position s items)
    (hentries : entries = items.map (entryAt position)) (f : Nat → Nat → α → α)
    (key index : Nat × Nat → Nat) (writer : LineWriter) (count : Nat → Nat) {number k : Nat}
    {line : Nat → ι} {edit : ι → LineScript α → S → Except Fault (List (LineReply α)) × S}
    (hcursor : Cursor.toList cursor = (List.range number).map line)
    (hedit : ∀ i < number, EditOverwrites position s index f writer (edit (line i))
      (items.filter fun p => key (position p.2) = i))
    (hk : k ≤ number) :
    ∃ left, LineScript.runLines edit (writer.scripts key index f entries count k) cursor s =
      (.ok (writer.lineReplies key index entries count k, left), mapPositions position
        (overwriting f ((lineParts key entries count k).map IndexedEntry.position)) s) := by
  subst hentries
  let part := fun i => (items.filter fun p => key (position p.2) = i).take (count i)
  have hpart : ∀ i, linePart key (items.map (entryAt position)) count i =
      (part i).map (entryAt position) := linePart_map key position items count
  have hcontents : Contents s ((List.range k).flatMap part) :=
    h.contents_lines key k fun i => List.take_sublist _ _
  have hsub : (List.range k).flatMap part ⊆ items := by
    intro p hp
    obtain ⟨i, -, hi⟩ := List.mem_flatMap.mp hp
    exact List.mem_of_mem_filter (List.mem_of_mem_take hi)
  have hbegins : (List.range k).map line <+: Cursor.toList cursor := by
    have htake : List.range k = (List.range number).take k := by
      rw [List.take_range, Nat.min_eq_left hk]
    rw [hcursor, htake]
    exact (List.take_prefix k _).map line
  have hparts : lineParts key (items.map (entryAt position)) count k =
      ((List.range k).flatMap part).map (entryAt position) := by
    rw [lineParts, List.map_flatMap]
    exact List.flatMap_congr fun i _ => hpart i
  rw [hparts, ← h.overwrite_eq f hsub]
  simp only [LineWriter.scripts, LineWriter.lineReplies, hpart]
  refine LineScript.runLines_overwrites ?_ (Recast.refl s) hcontents hbegins
  intro i hi t hrecast ht
  exact hedit i (Nat.lt_of_lt_of_le (List.mem_range.mp hi) hk) (part i) (List.take_prefix _ _) t
    hrecast ht

end Lines

end TransposedViews
