import Mathlib.Data.List.Infix

/-!
# XML documents as trees

Elements with their attributes and text, and where each stands in its document. A search lists the
elements in document order. The canonical form of a part of a document is its sequence of tags and
characters, from which single elements can be left out: the tags and the text of an element that is
left out are missing, what is inside it is asked for on its own.
-/
namespace UltimateCaManager.Xml

open List

structure QName where
  ns : String
  name : String
  deriving DecidableEq

/-- The nodes from one sibling on. -/
inductive Forest
  | nil
  | text (content : String) (rest : Forest)
  | element (name : QName) (attributes : List (QName × String)) (children rest : Forest)
  deriving DecidableEq

structure Element where
  name : QName
  attributes : List (QName × String)
  children : Forest
  deriving DecidableEq

/-- The positions of an element and its ancestors among their siblings, from the root. -/
abbrev Path := List ℕ

structure Located where
  path : Path
  element : Element
  deriving DecidableEq

/-- The text before the first element. -/
def Forest.leadingText : Forest → String
  | .text content rest => content ++ rest.leadingText
  | _ => ""

/-- The elements of a forest and everything inside them, in document order. -/
def Forest.located (p : Path) (i : ℕ) : Forest → List Located
  | .nil => []
  | .text _ rest => rest.located p (i + 1)
  | .element name attributes children rest =>
    ⟨p ++ [i], ⟨name, attributes, children⟩⟩ :: children.located (p ++ [i]) 0 ++
      rest.located p (i + 1)

/-- The elements of a forest, without what is inside them. -/
def Forest.siblings (p : Path) (i : ℕ) : Forest → List Located
  | .nil => []
  | .text _ rest => rest.siblings p (i + 1)
  | .element name attributes children rest =>
    ⟨p ++ [i], ⟨name, attributes, children⟩⟩ :: rest.siblings p (i + 1)

/-- The elements of a forest, wherever it stands. -/
def Forest.elements : Forest → List Element
  | .nil => []
  | .text _ rest => rest.elements
  | .element name attributes children rest => ⟨name, attributes, children⟩ :: rest.elements

def Element.text (e : Element) : String := e.children.leadingText

def Element.child? (e : Element) (name : QName) : Option Element :=
  e.children.elements.find? fun c => c.name = name

def Element.childrenNamed (e : Element) (name : QName) : List Element :=
  e.children.elements.filter fun c => c.name = name

def Element.attribute? (e : Element) (name : QName) : Option String :=
  (e.attributes.find? fun a => a.1 = name).map Prod.snd

namespace Located

def root (e : Element) : Located := ⟨[], e⟩

def name (l : Located) : QName := l.element.name

/-- The elements inside, in document order. -/
def descendants (l : Located) : List Located := l.element.children.located l.path 0

def all (l : Located) : List Located := l :: l.descendants

def children (l : Located) : List Located := l.element.children.siblings l.path 0

def child? (l : Located) (name : QName) : Option Located := l.children.find? fun c => c.name = name

def descendant? (l : Located) (name : QName) : Option Located :=
  l.descendants.find? fun d => d.name = name

end Located

/-! ## Where elements stand -/

variable {p : Path} {i : ℕ} {f : Forest} {l t : Located} {name : QName}

/-- Every element of a forest stands at or after its first position. -/
theorem path_of_mem_located (h : l ∈ f.located p i) : ∃ j ≥ i, ∃ rest, l.path = p ++ j :: rest := by
  induction f generalizing p i with
  | nil => cases h
  | text content rest ih =>
    obtain ⟨j, hj, tail, hpath⟩ := ih h
    exact ⟨j, by omega, tail, hpath⟩
  | element name attributes children rest ihc ihr =>
    rcases mem_append.mp h with h | h
    · rcases mem_cons.mp h with rfl | h
      · exact ⟨i, le_rfl, [], rfl⟩
      · obtain ⟨j, -, tail, hpath⟩ := ihc h
        exact ⟨i, le_rfl, j :: tail, by rw [hpath]; simp⟩
    · obtain ⟨j, hj, tail, hpath⟩ := ihr h
      exact ⟨j, by omega, tail, hpath⟩

theorem siblings_subset_located (h : l ∈ f.siblings p i) : l ∈ f.located p i := by
  induction f generalizing i with
  | nil => cases h
  | text content rest ih => exact ih h
  | element name attributes children rest _ ihr =>
    rcases mem_cons.mp h with rfl | h
    · exact mem_append_left _ mem_cons_self
    · exact mem_append_right _ (ihr h)

theorem located_trans (ht : t ∈ f.located p i) (hl : l ∈ t.descendants) : l ∈ f.located p i := by
  induction f generalizing p i with
  | nil => cases ht
  | text content rest ih => exact ih ht
  | element name attributes children rest ihc ihr =>
    rcases mem_append.mp ht with ht | ht
    · refine mem_append_left _ (mem_cons_of_mem _ ?_)
      rcases mem_cons.mp ht with rfl | ht
      · exact hl
      · exact ihc ht
    · exact mem_append_right _ (ihr ht)

theorem Located.mem_all_trans {u : Located} (ht : t ∈ u.all) (hl : l ∈ t.descendants) :
    l ∈ u.all := by
  refine mem_cons_of_mem _ ?_
  rcases mem_cons.mp ht with rfl | ht
  · exact hl
  · exact located_trans ht hl

/-- Elements of two different siblings are not inside each other. -/
theorem index_eq_of_prefix {q q' : Path} {a b : ℕ} {r r' : List ℕ} (hq : q = p ++ a :: r)
    (hq' : q' = p ++ b :: r') (h : q <+: q') : a = b := by
  rw [hq, hq', prefix_append_right_inj] at h
  exact (cons_prefix_cons.mp h).1

theorem mem_all_of_prefix (ht : t ∈ f.located p i) (hl : l ∈ f.located p i)
    (h : t.path <+: l.path) : l ∈ t.all := by
  induction f generalizing p i with
  | nil => cases ht
  | text content rest ih => exact ih ht hl
  | element name attributes children rest ihc ihr =>
    -- the head of the forest stands at `i`, everything after it later
    have hfirst : ∀ u ∈ (⟨p ++ [i], ⟨name, attributes, children⟩⟩ : Located) ::
        children.located (p ++ [i]) 0, ∃ r, u.path = p ++ i :: r := by
      intro u hu
      rcases mem_cons.mp hu with rfl | hu
      · exact ⟨[], rfl⟩
      · obtain ⟨j, -, r, hpath⟩ := path_of_mem_located hu
        exact ⟨j :: r, by rw [hpath]; simp⟩
    rcases mem_append.mp ht with ht | ht <;> rcases mem_append.mp hl with hl | hl
    · rcases mem_cons.mp ht with rfl | ht
      · exact hl
      · rcases mem_cons.mp hl with rfl | hl
        · obtain ⟨j, -, r, hpath⟩ := path_of_mem_located ht
          have hlen := h.length_le
          rw [hpath] at hlen
          simp at hlen
        · exact ihc ht hl
    · obtain ⟨r, hr⟩ := hfirst t ht
      obtain ⟨j, hj, r', hr'⟩ := path_of_mem_located hl
      have := index_eq_of_prefix hr hr' h
      omega
    · obtain ⟨j, hj, r, hr⟩ := path_of_mem_located ht
      obtain ⟨r', hr'⟩ := hfirst l hl
      have := index_eq_of_prefix hr hr' h
      omega
    · exact ihr ht hl

/-- Inside is where the path goes on. -/
theorem Located.mem_all_iff_prefix {e : Element} (ht : t ∈ (root e).all) (hl : l ∈ (root e).all) :
    l ∈ t.all ↔ t.path <+: l.path := by
  constructor
  · intro h
    rcases mem_cons.mp h with rfl | h
    · exact prefix_rfl
    · obtain ⟨j, -, rest, hpath⟩ := path_of_mem_located h
      exact ⟨j :: rest, hpath.symm⟩
  · intro h
    rcases mem_cons.mp ht with rfl | ht
    · exact hl
    · rcases mem_cons.mp hl with rfl | hl
      · obtain ⟨j, -, r, hpath⟩ := path_of_mem_located ht
        have hlen := h.length_le
        rw [hpath] at hlen
        simp [root] at hlen
      · exact mem_all_of_prefix ht hl h

/-! ## Canonical form -/

inductive Token
  | openTag (name : QName) (attributes : List (QName × String))
  | char (c : Char)
  | closeTag
  deriving DecidableEq

def chars (s : String) : List Token := s.toList.map .char

/-- The tokens of an element around those of its children. -/
def wrap (kept : Bool) (name : QName) (attributes : List (QName × String)) (inner : List Token) :
    List Token :=
  if kept then .openTag name attributes :: inner ++ [.closeTag] else inner

/-- The canonical form of the elements that are kept; `shown` tells whether their parent is. -/
def Forest.canonical (keep : Path → Bool) (shown : Bool) (p : Path) (i : ℕ) : Forest → List Token
  | .nil => []
  | .text content rest =>
    (if shown then chars content else []) ++ rest.canonical keep shown p (i + 1)
  | .element name attributes children rest =>
    wrap (keep (p ++ [i])) name attributes
        (children.canonical keep (keep (p ++ [i])) (p ++ [i]) 0) ++
      rest.canonical keep shown p (i + 1)

def Located.canonical (keep : Path → Bool) (l : Located) : List Token :=
  wrap (keep l.path) l.name l.element.attributes
    (l.element.children.canonical keep (keep l.path) l.path 0)

def Element.opening (e : Element) : List Token := .openTag e.name e.attributes :: chars e.text

variable {keep : Path → Bool} {shown : Bool}

theorem chars_append (s s' : String) : chars (s ++ s') = chars s ++ chars s' := by
  simp [chars]

theorem leadingText_isPrefix (keep : Path → Bool) (p : Path) (i : ℕ) (f : Forest) :
    chars f.leadingText <+: f.canonical keep true p i := by
  induction f generalizing i with
  | nil | element => exact nil_prefix
  | text content rest ih =>
    rw [Forest.leadingText, chars_append]
    exact (prefix_append_right_inj (chars content)).mpr (ih (i + 1))

theorem opening_isPrefix (h : keep l.path = true) : l.element.opening <+: l.canonical keep := by
  unfold Located.canonical wrap
  rw [h]
  refine cons_prefix_cons.mpr ⟨rfl, ?_⟩
  exact (leadingText_isPrefix keep l.path 0 l.element.children).trans (prefix_append _ _)

theorem infix_wrap {tokens inner : List Token} (kept : Bool) (name : QName)
    (attributes : List (QName × String)) (h : tokens <:+: inner) :
    tokens <:+: wrap kept name attributes inner := by
  unfold wrap
  split
  · exact h.trans ⟨[.openTag name attributes], [.closeTag], rfl⟩
  · exact h

/-- An element that is kept shows in the canonical form of everything around it. -/
theorem opening_infix_forest (h : keep l.path = true) (hl : l ∈ f.located p i) :
    l.element.opening <:+: f.canonical keep shown p i := by
  induction f generalizing p i shown with
  | nil => cases hl
  | text content rest ih => exact (ih hl).trans (suffix_append _ _).isInfix
  | element name attributes children rest ihc ihr =>
    rcases mem_append.mp hl with hl | hl
    · refine List.IsInfix.trans ?_ (prefix_append _ _).isInfix
      rcases mem_cons.mp hl with rfl | hl
      · exact (opening_isPrefix h).isInfix
      · exact infix_wrap _ _ _ (ihc hl)
    · exact (ihr hl).trans (suffix_append _ _).isInfix

theorem Located.opening_infix (h : keep l.path = true) (hl : l ∈ t.all) :
    l.element.opening <:+: t.canonical keep := by
  rcases mem_cons.mp hl with rfl | hl
  · exact (opening_isPrefix h).isInfix
  · exact infix_wrap _ _ _ (opening_infix_forest h hl)

end UltimateCaManager.Xml
