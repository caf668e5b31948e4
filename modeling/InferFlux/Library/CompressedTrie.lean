import Mathlib.Data.List.Perm.Basic
import Mathlib.Data.List.Nodup
import Mathlib.Tactic

/-!
# Compressed tries

A compressed trie stores a payload at every node and labels the edge into a node
with a non-empty list of symbols. The children of a node are a finite map keyed by
the first symbol of their edge, represented as a sibling list.
-/

namespace CompressedTrie

open List Function

inductive Forest (κ δ : Type) where
  | nil
  | cons (key : κ) (edge : List κ) (data : δ) (children rest : Forest κ δ)
  deriving DecidableEq, Repr

/-- One node with the edge leading to it, its payload and its child map. -/
structure Node (κ δ : Type) where
  edge : List κ
  data : δ
  children : Forest κ δ
  deriving DecidableEq, Repr

variable {κ δ : Type}

namespace Forest

def keys : Forest κ δ → List κ
  | nil => []
  | cons key _ _ _ rest => key :: rest.keys

def isEmpty : Forest κ δ → Bool
  | nil => true
  | cons .. => false

/-- Replace the node stored under `k`, or add it behind the last sibling. -/
def set [DecidableEq κ] : Forest κ δ → κ → Node κ δ → Forest κ δ
  | nil, k, n => cons k n.edge n.data n.children nil
  | cons key edge data children rest, k, n =>
    if key = k then cons key n.edge n.data n.children rest
    else cons key edge data children (rest.set k n)

def erase [DecidableEq κ] : Forest κ δ → κ → Forest κ δ
  | nil, _ => nil
  | cons key edge data children rest, k =>
    if key = k then rest else cons key edge data children (rest.erase k)

/-- Every node with its path, a node before its children. -/
def nodes : Forest κ δ → List (List κ × Node κ δ)
  | nil => []
  | cons _ edge data children rest =>
    (edge, ⟨edge, data, children⟩) ::
      (children.nodes.map (fun x => (edge ++ x.1, x.2)) ++ rest.nodes)

def entries : Forest κ δ → List (List κ × δ)
  | nil => []
  | cons _ edge data children rest =>
    (edge, data) :: (children.entries.map (fun x => (edge ++ x.1, x.2)) ++ rest.entries)

/-- Well-formed child maps: an edge is non-empty and stored under its first symbol,
and siblings have distinct keys. -/
def WF : Forest κ δ → Prop
  | nil => True
  | cons key edge _ children rest =>
    edge.head? = some key ∧ key ∉ rest.keys ∧ children.WF ∧ rest.WF

end Forest

/-- The payloads of a node and everything below it, with paths that start with the
node's own edge. -/
def Node.entries (n : Node κ δ) : List (List κ × δ) :=
  (n.edge, n.data) :: n.children.entries.map (fun x => (n.edge ++ x.1, x.2))

variable {k : κ}

namespace Forest

@[simp] theorem keys_nil : (nil : Forest κ δ).keys = [] := rfl
@[simp] theorem keys_cons (key : κ) (edge : List κ) (data : δ) (children rest : Forest κ δ) :
    (cons key edge data children rest).keys = key :: rest.keys := rfl
@[simp] theorem entries_nil : (nil : Forest κ δ).entries = [] := rfl
@[simp] theorem nodes_nil : (nil : Forest κ δ).nodes = [] := rfl

theorem entries_cons (key : κ) (edge : List κ) (data : δ) (children rest : Forest κ δ) :
    (cons key edge data children rest).entries =
      (Node.mk edge data children).entries ++ rest.entries := by
  simp [entries, Node.entries]

theorem isEmpty_iff (f : Forest κ δ) : f.isEmpty = true ↔ f = nil := by
  cases f <;> simp [isEmpty]

theorem entries_eq_nodes (f : Forest κ δ) : f.entries = f.nodes.map (fun x => (x.1, x.2.data)) := by
  induction f with
  | nil => rfl
  | cons key edge data children rest ihc ihr => simp [entries, nodes, ihc, ihr]

variable {f : Forest κ δ} {p : List κ} {d : δ}

theorem mem_entries_iff : (p, d) ∈ f.entries ↔ ∃ n, (p, n) ∈ f.nodes ∧ n.data = d := by
  simp [entries_eq_nodes]

variable {n : Node κ δ}

section Map
variable [DecidableEq κ] {q : κ}

theorem mem_keys_erase (h : q ∈ (f.erase k).keys) : q ∈ f.keys := by
  induction f with
  | nil => simp [erase] at h
  | cons key edge data children rest _ ihr =>
    by_cases hk : key = k
    · simp only [erase, if_pos hk] at h
      simp [h]
    · simp only [erase, if_neg hk, keys_cons, mem_cons] at h
      rcases h with h | h
      · simp [h]
      · simp [ihr h]

theorem mem_keys_set : q ∈ (f.set k n).keys ↔ q = k ∨ q ∈ f.keys := by
  induction f with
  | nil => simp [set]
  | cons key edge data children rest _ ihr =>
    by_cases hk : key = k
    · subst hk
      simp [set]
    · simp only [set, if_neg hk, keys_cons, mem_cons, ihr]
      tauto

end Map

section WellFormed

theorem head?_of_mem_entries (hf : f.WF) (h : (p, d) ∈ f.entries) :
    ∃ k ∈ f.keys, p.head? = some k := by
  induction f with
  | nil => simp at h
  | cons key edge data children rest _ ihr =>
    simp only [entries_cons, Node.entries, cons_append, mem_cons, Prod.mk.injEq,
      mem_append, mem_map, Prod.exists] at h
    rcases h with ⟨rfl, -⟩ | ⟨q, e, -, rfl, -⟩ | h
    · exact ⟨key, by simp, hf.1⟩
    · exact ⟨key, by simp, by simp [head?_append, hf.1]⟩
    · obtain ⟨k, hk, hp⟩ := ihr hf.2.2.2 h
      exact ⟨k, by simp [hk], hp⟩

variable {edge : List κ} {data : δ} {children rest : Forest κ δ}

theorem mem_entries_cons {key : κ} :
    (p, d) ∈ (cons key edge data children rest).entries ↔
      (p = edge ∧ d = data) ∨ (∃ q, p = edge ++ q ∧ (q, d) ∈ children.entries) ∨
        (p, d) ∈ rest.entries := by
  simp only [entries, mem_cons, mem_append, mem_map, Prod.mk.injEq, Prod.exists]
  grind

/-- A path of the first node or below it begins with its edge. -/
theorem edge_append_or_mem_rest {key : κ} (h : (p, d) ∈ (cons key edge data children rest).entries) :
    (∃ q, p = edge ++ q) ∨ (p, d) ∈ rest.entries := by
  rcases mem_entries_cons.mp h with ⟨rfl, -⟩ | ⟨q, hq, -⟩ | h
  · exact .inl ⟨[], by simp⟩
  · exact .inl ⟨q, hq⟩
  · exact .inr h

/-- Siblings behind the first start with another symbol. -/
theorem WF.head?_ne {key : κ} (hf : (cons key edge data children rest).WF)
    (h : (p, d) ∈ rest.entries) : p.head? ≠ some key := by
  obtain ⟨k, hk, hp⟩ := head?_of_mem_entries hf.2.2.2 h
  intro hkey
  rw [hp, Option.some.injEq] at hkey
  exact hf.2.1 (hkey ▸ hk)

theorem ne_nil_of_mem_entries (hf : f.WF) (h : (p, d) ∈ f.entries) : p ≠ [] := by
  obtain ⟨k, -, hp⟩ := head?_of_mem_entries hf h
  rintro rfl
  simp at hp

theorem WF.of_mem_nodes (hf : f.WF) (h : (p, n) ∈ f.nodes) :
    (∃ k, n.edge.head? = some k) ∧ n.children.WF := by
  induction f generalizing p with
  | nil => simp at h
  | cons key edge data children rest ihc ihr =>
    simp only [nodes, mem_cons, Prod.mk.injEq, mem_append, mem_map, Prod.exists] at h
    rcases h with ⟨-, rfl⟩ | ⟨q, m, hq, -, rfl⟩ | h
    · exact ⟨⟨key, hf.1⟩, hf.2.2.1⟩
    · exact ihc hf.2.2.1 hq
    · exact ihr hf.2.2.2 h

theorem nodup_paths (hf : f.WF) : (f.entries.map Prod.fst).Nodup := by
  induction f with
  | nil => simp
  | cons key edge data children rest ihc ihr =>
    have hother : ∀ p, p.head? = some key → p ∉ rest.entries.map Prod.fst := by
      intro p hkey hp
      obtain ⟨x, hx, rfl⟩ := mem_map.mp hp
      exact hf.head?_ne hx hkey
    obtain ⟨hkey, -, hc, hr⟩ := hf
    have hbelow : [] ∉ children.entries.map Prod.fst := by
      intro hp
      obtain ⟨x, hx, hnil⟩ := mem_map.mp hp
      exact ne_nil_of_mem_entries hc hx hnil
    have hpaths : (cons key edge data children rest).entries.map Prod.fst =
        edge :: ((children.entries.map Prod.fst).map (edge ++ ·) ++ rest.entries.map Prod.fst) := by
      simp [entries, comp_def]
    rw [hpaths, nodup_cons, nodup_append]
    refine ⟨?_, (ihc hc).map (append_right_injective edge), ihr hr, ?_⟩
    · simpa [hother edge hkey] using hbelow
    · rintro p hp q hq rfl
      obtain ⟨r, -, rfl⟩ := mem_map.mp hp
      exact hother _ (by simp [head?_append, hkey]) hq

variable [DecidableEq κ]

theorem WF.set (hf : f.WF) (hn : n.edge.head? = some k) (hc : n.children.WF) : (f.set k n).WF := by
  induction f with
  | nil => exact ⟨hn, by simp, hc, trivial⟩
  | cons key edge data children rest _ ihr =>
    obtain ⟨hkey, hfresh, hch, hr⟩ := hf
    by_cases hk : key = k
    · subst hk
      simp only [Forest.set]
      exact ⟨hn, hfresh, hc, hr⟩
    · simp only [Forest.set, if_neg hk]
      exact ⟨hkey, by simp [mem_keys_set, hk, hfresh], hch, ihr hr⟩

theorem WF.erase (hf : f.WF) (k : κ) : (f.erase k).WF := by
  induction f with
  | nil => trivial
  | cons key edge data children rest _ ihr =>
    obtain ⟨hkey, hfresh, hch, hr⟩ := hf
    by_cases hk : key = k
    · simpa only [Forest.erase, if_pos hk] using hr
    · simp only [Forest.erase, if_neg hk]
      exact ⟨hkey, fun h => hfresh (mem_keys_erase h), hch, ihr hr⟩

end WellFormed

/-! ## Back pointers

Payloads may carry an address and a pointer to the owning node. `Linked` says that
the pointers agree with the tree; then a node can be removed through its pointer. -/

section Links
variable {α : Type} (addr : δ → α) (parent : δ → Option α)

/-- Every node points back to the node that owns it; `owner` owns the siblings. -/
def Linked : α → Forest κ δ → Prop
  | _, nil => True
  | owner, cons _ _ data children rest =>
    parent data = some owner ∧ Linked (addr data) children ∧ Linked owner rest

def addrs (f : Forest κ δ) : List α := f.entries.map (fun x => addr x.2)

@[simp] theorem addrs_nil : (nil : Forest κ δ).addrs addr = [] := rfl

@[simp] theorem addrs_cons (key : κ) (edge : List κ) (data : δ) (children rest : Forest κ δ) :
    (cons key edge data children rest).addrs addr =
      addr data :: (children.addrs addr ++ rest.addrs addr) := by
  simp [addrs, entries, comp_def]

variable {owner : α} {parent : δ → Option α}

/-- A node's pointer leads to the owner of the forest or to another node of it. -/
theorem Linked.parent_mem {addr : δ → α} (hf : Linked addr parent owner f)
    (h : (p, d) ∈ f.entries) : ∃ a, parent d = some a ∧ (a = owner ∨ a ∈ f.addrs addr) := by
  induction f generalizing owner p with
  | nil => simp at h
  | cons key edge data children rest ihc ihr =>
    obtain ⟨hd, hc, hr⟩ := hf
    simp only [entries, mem_cons, Prod.mk.injEq, mem_append, mem_map, Prod.exists] at h
    rcases h with ⟨-, rfl⟩ | ⟨q, e, hq, -, rfl⟩ | h
    · exact ⟨owner, hd, Or.inl rfl⟩
    · obtain ⟨a, ha, rfl | hm⟩ := ihc hc hq
      · exact ⟨_, ha, Or.inr (by simp)⟩
      · exact ⟨a, ha, Or.inr (by simp [hm])⟩
    · obtain ⟨a, ha, rfl | hm⟩ := ihr hr h
      · exact ⟨_, ha, Or.inl rfl⟩
      · exact ⟨a, ha, Or.inr (by simp [hm])⟩

/-- A node that points to the owner is one of the top-level siblings. -/
theorem Linked.path_eq_edge {addr : δ → α} (hf : Linked addr parent owner f)
    (ho : owner ∉ f.addrs addr) (h : (p, n) ∈ f.nodes) (hn : parent n.data = some owner) :
    p = n.edge := by
  induction f with
  | nil => simp at h
  | cons key edge data children rest _ ihr =>
    simp only [addrs_cons, mem_cons, mem_append, not_or] at ho
    simp only [nodes, mem_cons, Prod.mk.injEq, mem_append, mem_map, Prod.exists] at h
    rcases h with ⟨rfl, rfl⟩ | ⟨q, m, hq, -, rfl⟩ | h
    · rfl
    · obtain ⟨a, ha, hin⟩ := hf.2.1.parent_mem (mem_entries_iff.mpr ⟨m, hq, rfl⟩)
      obtain rfl : owner = a := by simpa [hn] using ha
      rcases hin with hin | hin
      · exact absurd hin ho.1
      · exact absurd hin ho.2.1
    · exact ihr hf.2.2 ho.2.2 h

variable [DecidableEq κ]

theorem Linked.erase {addr : δ → α} (hf : Linked addr parent owner f) (k : κ) :
    Linked addr parent owner (f.erase k) := by
  induction f with
  | nil => trivial
  | cons key edge data children rest _ ihr =>
    by_cases hk : key = k
    · simpa only [Forest.erase, if_pos hk] using hf.2.2
    · simp only [Forest.erase, if_neg hk]
      exact ⟨hf.1, hf.2.1, ihr hf.2.2⟩

theorem Linked.set {addr : δ → α} (hf : Linked addr parent owner f)
    (hn : parent n.data = some owner) (hc : Linked addr parent (addr n.data) n.children) (k : κ) :
    Linked addr parent owner (f.set k n) := by
  induction f with
  | nil => exact ⟨hn, hc, trivial⟩
  | cons key edge data children rest _ ihr =>
    by_cases hk : key = k
    · simp only [Forest.set, if_pos hk]
      exact ⟨hn, hc, hf.2.2⟩
    · simp only [Forest.set, if_neg hk]
      exact ⟨hf.1, hf.2.1, ihr hf.2.2⟩

variable [DecidableEq α]

/-- Remove the child stored under `k` from the node at address `a`. -/
def eraseUnder (a : α) (k : κ) : Forest κ δ → Forest κ δ
  | nil => nil
  | cons key edge data children rest =>
    cons key edge data (if addr data = a then children.erase k else eraseUnder a k children)
      (eraseUnder a k rest)

/-- The same, where the forest itself belongs to the node at `owner`. -/
def eraseFrom (owner a : α) (k : κ) (f : Forest κ δ) : Forest κ δ :=
  if owner = a then f.erase k else f.eraseUnder addr a k

variable {a : α}

theorem eraseUnder_of_not_mem (h : a ∉ f.addrs addr) : f.eraseUnder addr a k = f := by
  induction f with
  | nil => rfl
  | cons key edge data children rest ihc ihr =>
    simp only [addrs_cons, mem_cons, mem_append, not_or] at h
    simp [eraseUnder, Ne.symm h.1, ihc h.2.1, ihr h.2.2]

@[simp] theorem keys_eraseUnder (a : α) (k : κ) (f : Forest κ δ) :
    (f.eraseUnder addr a k).keys = f.keys := by
  induction f with
  | nil => rfl
  | cons key edge data children rest _ ihr => simp [eraseUnder, ihr]

theorem WF.eraseUnder (hf : f.WF) (a : α) (k : κ) : (f.eraseUnder addr a k).WF := by
  induction f with
  | nil => trivial
  | cons key edge data children rest ihc ihr =>
    obtain ⟨hkey, hfresh, hc, hr⟩ := hf
    refine ⟨hkey, by simpa using hfresh, ?_, ihr hr⟩
    split_ifs
    · exact hc.erase k
    · exact ihc hc

theorem WF.eraseFrom (hf : f.WF) (owner a : α) (k : κ) : (f.eraseFrom addr owner a k).WF := by
  unfold Forest.eraseFrom
  split_ifs
  · exact hf.erase k
  · exact hf.eraseUnder addr a k

theorem Linked.eraseUnder {addr : δ → α} (hf : Linked addr parent owner f) (a : α) (k : κ) :
    Linked addr parent owner (f.eraseUnder addr a k) := by
  induction f generalizing owner with
  | nil => trivial
  | cons key edge data children rest ihc ihr =>
    refine ⟨hf.1, ?_, ihr hf.2.2⟩
    split_ifs
    · exact hf.2.1.erase k
    · exact ihc hf.2.1

theorem Linked.eraseFrom {addr : δ → α} (hf : Linked addr parent owner f) (a : α) (k : κ) :
    Linked addr parent owner (f.eraseFrom addr owner a k) := by
  unfold Forest.eraseFrom
  split_ifs
  · exact hf.erase k
  · exact hf.eraseUnder a k

omit [DecidableEq κ] in
theorem filter_addr_eq_self {addr : δ → α} {l : List (List κ × δ)} {b : α}
    (hb : b ∉ l.map (fun x => addr x.2)) : l.filter (fun x => addr x.2 ≠ b) = l :=
  filter_eq_self.mpr fun _ hx => decide_eq_true fun h => hb (h ▸ mem_map_of_mem hx)

/-- Removing a leaf through its back pointer removes exactly its own entry. -/
theorem entries_eraseFrom_leaf {addr : δ → α} (hf : f.WF) (hl : Linked addr parent owner f)
    (hnd : (owner :: f.addrs addr).Nodup) (hn : (p, n) ∈ f.nodes) (hleaf : n.children = nil)
    (ha : parent n.data = some a) (hk : n.edge.head? = some k) :
    (f.eraseFrom addr owner a k).entries = f.entries.filter (fun x => addr x.2 ≠ addr n.data) := by
  induction f generalizing owner p with
  | nil => simp at hn
  | cons key edge data children rest ihc ihr =>
    obtain ⟨hkey, hfresh, hc, hr⟩ := hf
    obtain ⟨hd, hlc, hlr⟩ := hl
    simp only [addrs_cons, nodup_cons, mem_cons, mem_append, not_or, nodup_append] at hnd
    obtain ⟨⟨hod, hoc, hor⟩, ⟨hdc, hdr⟩, hndc, hndr, hcr⟩ := hnd
    simp only [nodes, mem_cons, Prod.mk.injEq, mem_append, mem_map, Prod.exists] at hn
    rcases hn with ⟨-, rfl⟩ | ⟨q, m, hq, -, rfl⟩ | hn
    · obtain rfl : owner = a := by simpa [hd] using ha
      obtain rfl : key = k := by simpa [hkey] using hk
      obtain rfl : children = nil := hleaf
      simpa [eraseFrom, erase, entries] using (filter_addr_eq_self hdr).symm
    · -- the leaf lies below this node, so its pointer stays inside `children`
      have hmem : (q, m.data) ∈ children.entries := mem_entries_iff.mpr ⟨m, hq, rfl⟩
      have hma : addr m.data ∈ children.addrs addr := mem_map.mpr ⟨_, hmem, rfl⟩
      obtain ⟨a', ha', hin⟩ := hlc.parent_mem hmem
      obtain rfl : a = a' := by simpa [ha] using ha'
      have hoa : owner ≠ a := by grind
      have har : a ∉ rest.addrs addr := by grind
      have hrec : (cons key edge data children rest).eraseFrom addr owner a k =
          cons key edge data (children.eraseFrom addr (addr data) a k) rest := by
        simp [eraseFrom, hoa, eraseUnder, eraseUnder_of_not_mem addr har]
      have hne : addr data ≠ addr m.data := fun h => hdc (h ▸ hma)
      have hmr : addr m.data ∉ rest.addrs addr := fun h => hcr _ hma _ h rfl
      have ih := ihc hc hlc (nodup_cons.mpr ⟨hdc, hndc⟩) hq
      rw [hrec]
      simp only [entries, ih, filter_cons, filter_append, filter_map, filter_addr_eq_self hmr]
      simp [hne, comp_def]
    · have hmem : (p, n.data) ∈ rest.entries := mem_entries_iff.mpr ⟨n, hn, rfl⟩
      have hma : addr n.data ∈ rest.addrs addr := mem_map.mpr ⟨_, hmem, rfl⟩
      obtain ⟨a', ha', hin⟩ := hlr.parent_mem hmem
      obtain rfl : a = a' := by simpa [ha] using ha'
      have hrec : (cons key edge data children rest).eraseFrom addr owner a k =
          cons key edge data children (rest.eraseFrom addr owner a k) := by
        by_cases hoa : owner = a
        · -- a sibling of this node, stored under another key
          have hkk : key ≠ k := by
            rintro rfl
            obtain ⟨k', hk', hp⟩ := head?_of_mem_entries hr hmem
            rw [hlr.path_eq_edge hor hn (hoa ▸ ha), hk] at hp
            cases hp
            exact hfresh hk'
          simp [eraseFrom, hoa, erase, hkk]
        · have hda : addr data ≠ a := by grind
          have hca : a ∉ children.addrs addr := by grind
          simp [eraseFrom, hoa, eraseUnder, hda, eraseUnder_of_not_mem addr hca]
      have hne : addr data ≠ addr n.data := fun h => hdr (h ▸ hma)
      have hmc : addr n.data ∉ children.addrs addr := fun h => hcr _ h _ hma rfl
      have ih := ihr hr hlr (nodup_cons.mpr ⟨hor, hndr⟩) hn
      rw [hrec]
      simp only [entries, ih, filter_cons, filter_append, filter_map, comp_def,
        filter_addr_eq_self hmc]
      simp [hne]

omit [DecidableEq κ] in
/-- When addresses are distinct, an entry is the only one with its address. -/
theorem perm_cons_filter_addr {addr : δ → α} {l : List (List κ × δ)}
    (hnd : (l.map (fun x => addr x.2)).Nodup) {x : List κ × δ} (hx : x ∈ l) :
    l.Perm (x :: l.filter (fun y => addr y.2 ≠ addr x.2)) := by
  classical
  have hnodup : l.Nodup := .of_map _ hnd
  have hfilter : l.erase x = l.filter fun y => addr y.2 ≠ addr x.2 := by
    rw [hnodup.erase_eq_filter]
    refine filter_congr fun y hy => ?_
    rw [Bool.eq_iff_iff, bne_iff_ne, decide_eq_true_eq]
    exact not_congr ⟨fun h => h ▸ rfl, fun h => inj_on_of_nodup_map hnd hy hx h⟩
  rw [← hfilter]
  exact perm_cons_erase hx

end Links

theorem exists_leaf (hf : f ≠ nil) : ∃ x ∈ f.nodes, x.2.children = nil := by
  induction f with
  | nil => exact absurd rfl hf
  | cons key edge data children rest ihc _ =>
    by_cases hc : children = nil
    · exact ⟨(edge, ⟨edge, data, children⟩), by simp [nodes], hc⟩
    · obtain ⟨x, hx, hleaf⟩ := ihc hc
      exact ⟨(edge ++ x.1, x.2), by simp [nodes, hx], hleaf⟩

/-! ## Updating payloads in place -/

def mapData (g : δ → δ) : Forest κ δ → Forest κ δ
  | nil => nil
  | cons key edge data children rest =>
    cons key edge (g data) (mapData g children) (mapData g rest)

variable (g : δ → δ)

@[simp] theorem keys_mapData (f : Forest κ δ) : (f.mapData g).keys = f.keys := by
  induction f with
  | nil => rfl
  | cons key edge data children rest _ ihr => simp [mapData, ihr]

theorem entries_mapData (f : Forest κ δ) :
    (f.mapData g).entries = f.entries.map (fun x => (x.1, g x.2)) := by
  induction f with
  | nil => rfl
  | cons key edge data children rest ihc ihr =>
    simp [mapData, entries, ihc, ihr, comp_def]

theorem nodes_mapData (f : Forest κ δ) :
    (f.mapData g).nodes =
      f.nodes.map (fun x => (x.1, ⟨x.2.edge, g x.2.data, x.2.children.mapData g⟩)) := by
  induction f with
  | nil => rfl
  | cons key edge data children rest ihc ihr =>
    simp [mapData, nodes, ihc, ihr, comp_def]

@[simp] theorem wf_mapData (f : Forest κ δ) : (f.mapData g).WF ↔ f.WF := by
  induction f with
  | nil => rfl
  | cons key edge data children rest ihc ihr => simp [mapData, WF, ihc, ihr]

variable {g : δ → δ}

theorem linked_mapData {α : Type} {addr : δ → α} {parent : δ → Option α}
    (ha : ∀ d, addr (g d) = addr d) (hp : ∀ d, parent (g d) = parent d) (owner : α)
    (f : Forest κ δ) : Linked addr parent owner (f.mapData g) ↔ Linked addr parent owner f := by
  induction f generalizing owner with
  | nil => rfl
  | cons key edge data children rest ihc ihr => simp [mapData, Linked, ha, hp, ihc, ihr]

theorem addrs_mapData {α : Type} {addr : δ → α} (ha : ∀ d, addr (g d) = addr d) (f : Forest κ δ) :
    (f.mapData g).addrs addr = f.addrs addr := by
  simp [addrs, entries_mapData, comp_def, ha]

end Forest

/-! ## Comparing an edge with the remaining symbols -/

variable {as bs : List κ}

section CommonPrefix
variable [DecidableEq κ]

def commonPrefixLength : List κ → List κ → Nat
  | a :: as, b :: bs => if a = b then commonPrefixLength as bs + 1 else 0
  | _, _ => 0

theorem commonPrefixLength_le_left (as bs : List κ) : commonPrefixLength as bs ≤ as.length := by
  fun_induction commonPrefixLength as bs <;> simp_all

theorem commonPrefixLength_le_right (as bs : List κ) : commonPrefixLength as bs ≤ bs.length := by
  fun_induction commonPrefixLength as bs <;> simp_all

theorem take_commonPrefixLength (as bs : List κ) :
    as.take (commonPrefixLength as bs) = bs.take (commonPrefixLength as bs) := by
  fun_induction commonPrefixLength as bs <;> simp_all

theorem take_append_drop_commonPrefixLength (as bs : List κ) :
    as.take (commonPrefixLength as bs) ++ bs.drop (commonPrefixLength as bs) = bs := by
  rw [take_commonPrefixLength, take_append_drop]

theorem commonPrefixLength_eq (h : ¬ commonPrefixLength as bs < as.length) :
    commonPrefixLength as bs = as.length := by
  have := commonPrefixLength_le_left as bs
  omega

/-- A fully matched edge is followed by the symbols behind the match. -/
theorem append_drop_commonPrefixLength (h : ¬ commonPrefixLength as bs < as.length) :
    as ++ bs.drop (commonPrefixLength as bs) = bs := by
  have := take_append_drop_commonPrefixLength as bs
  rwa [take_of_length_le (by omega)] at this

theorem commonPrefixLength_pos (ha : as.head? = some k) (hb : bs.head? = some k) :
    0 < commonPrefixLength as bs := by
  cases as <;> cases bs <;> simp_all [commonPrefixLength]

variable {b : κ}

theorem head?_drop_commonPrefixLength {a : κ}
    (ha : (as.drop (commonPrefixLength as bs)).head? = some a)
    (hb : (bs.drop (commonPrefixLength as bs)).head? = some b) : a ≠ b := by
  induction as generalizing bs with
  | nil => simp at ha
  | cons x as ih =>
    cases bs with
    | nil => simp at hb
    | cons y bs =>
      by_cases h : x = y
      · simp only [commonPrefixLength, if_pos h, drop_succ_cons] at ha hb
        exact ih ha hb
      · simp only [commonPrefixLength, if_neg h, drop_zero, head?_cons, Option.some.injEq] at ha hb
        exact ha ▸ hb ▸ h

theorem commonPrefixLength_drop {n : Nat} (h : n ≤ commonPrefixLength as bs) :
    commonPrefixLength (as.drop n) (bs.drop n) = commonPrefixLength as bs - n := by
  induction n generalizing as bs with
  | zero => rfl
  | succ n ih =>
    fun_cases commonPrefixLength as bs with
    | case1 a as bs =>
      simp only [commonPrefixLength, if_true] at h
      rw [drop_succ_cons, drop_succ_cons, ih (Nat.le_of_succ_le_succ h)]
      omega
    | case2 a as b bs hne => simp [commonPrefixLength, hne] at h
    | case3 as bs hne =>
      unfold commonPrefixLength at h
      split at h
      · exact absurd rfl (hne _ _ _ _ rfl)
      · omega

/-- The whole edge matches exactly when it is a prefix of the symbols. -/
theorem not_commonPrefixLength_lt_iff (as bs : List κ) :
    ¬ commonPrefixLength as bs < as.length ↔ as <+: bs := by
  induction as generalizing bs with
  | nil => simp
  | cons x as ih =>
    cases bs with
    | nil => simp [commonPrefixLength]
    | cons y bs =>
      by_cases h : x = y
      · simp [commonPrefixLength, h, ← ih bs]
      · simp [commonPrefixLength, h]

/-- Symbols that leave an edge do not come back below it. -/
theorem not_prefix_append_of_drop {more : List κ} (hlt : commonPrefixLength as bs < as.length)
    (hdrop : bs.drop (commonPrefixLength as bs) = b :: more) (cs : List κ) : ¬ bs <+: as ++ cs := by
  fun_induction commonPrefixLength as bs with
  | case1 a as bs ih =>
    simp only [cons_append, cons_prefix_cons, true_and]
    exact ih (by simpa using hlt) (by simpa using hdrop)
  | case2 a as b' bs hne =>
    simp only [cons_append, cons_prefix_cons, not_and]
    exact fun heq => absurd heq.symm hne
  | case3 as bs h =>
    cases as with
    | nil => simp at hlt
    | cons a as =>
      cases bs with
      | nil => simp at hdrop
      | cons b' bs => exact absurd rfl (h a as b' bs rfl)

end CommonPrefix

theorem head?_of_prefix_cons {a : κ} (h : a :: as <+: bs) : bs.head? = some a := by
  obtain ⟨cs, rfl⟩ := h
  rfl

end CompressedTrie
