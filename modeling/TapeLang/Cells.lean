/-!
# Rows of bytes

A row of bytes of a fixed size, kept as pages. Pages on which nothing has been written are one and
the same in memory, so that a long row takes no more room than what is written to it.

* `Cells.get_blank`, `Cells.get_set`: what each operation does to every byte.
* `Cells.ext_get`: two rows of one size with the same bytes are the same.
-/

namespace TapeLang

/-- The number of bytes on a full page. -/
def pageSize : Nat := 4096

namespace Page

def zeros (size : Nat) : ByteArray := ⟨Array.replicate size 0⟩

/-- A full page without a mark. -/
def blank : ByteArray := zeros pageSize

def write (page : ByteArray) (i : Nat) (v : UInt8) : ByteArray :=
  if h : i < page.size then page.set i v h else page

@[simp] theorem size_zeros (size : Nat) : (zeros size).size = size := by
  simp [zeros, ByteArray.size]

@[simp] theorem getElem_zeros {size i : Nat} (h : i < (zeros size).size) : (zeros size)[i] = 0 := by
  simp only [zeros, ByteArray.getElem_eq_getElem_data, Array.getElem_replicate]

@[simp] theorem size_write (page : ByteArray) (i : Nat) (v : UInt8) :
    (write page i v).size = page.size := by
  unfold write
  split
  · exact Array.size_set _
  · rfl

theorem getElem_write (page : ByteArray) (i : Nat) (v : UInt8) {j : Nat} (hj : j < page.size)
    (h : j < (write page i v).size) : (write page i v)[j] = if i = j then v else page[j] := by
  unfold write
  split
  · simp only [ByteArray.set, ByteArray.getElem_eq_getElem_data, Array.getElem_set]
  · rw [if_neg (by omega)]

end Page

/-- Pages are compared as the core library compares them. -/
local instance (priority := high) Page.decEq : DecidableEq ByteArray := ByteArray.instDecidableEq

/-- All pages are full but the last, which may be empty. -/
structure Cells where
  pages : Array ByteArray
  size : Nat
  size_pages : pages.size = size / pageSize + 1
  size_page : ∀ (k : Nat) (h : k < pages.size), pages[k].size = min pageSize (size - k * pageSize)
deriving DecidableEq

namespace Cells

/-- A row of zeros. -/
def blank (size : Nat) : Cells where
  pages := (Array.replicate (size / pageSize) Page.blank).push (Page.zeros (size % pageSize))
  size
  size_pages := by simp
  size_page k h := by
    have hs : k < size / pageSize + 1 := by simpa using h
    have hd := Nat.div_add_mod size pageSize
    have hm := Nat.mod_lt size (show 0 < pageSize by decide)
    rw [Array.getElem_push]
    split
    · rename_i hk
      have hk : k < size / pageSize := by simpa using hk
      have := Nat.mul_le_mul_left pageSize hk
      simp only [Array.getElem_replicate, Page.blank, Page.size_zeros]
      rw [Nat.mul_succ] at this
      rw [Nat.mul_comm k]
      omega
    · rename_i hk
      have hk : k = size / pageSize := by simp at hk; omega
      rw [Page.size_zeros, hk, Nat.mul_comm]
      omega

theorem page_lt (c : Cells) {i : Nat} (h : i < c.size) : i / pageSize < c.pages.size := by
  have := Nat.div_le_div_right (c := pageSize) (Nat.le_of_lt h)
  have := c.size_pages
  omega

theorem mod_lt_page (c : Cells) {i : Nat} (h : i < c.size) (hp : i / pageSize < c.pages.size) :
    i % pageSize < c.pages[i / pageSize].size := by
  have hd := Nat.div_add_mod i pageSize
  have hm := Nat.mod_lt i (show 0 < pageSize by decide)
  rw [c.size_page, Nat.mul_comm]
  omega

/-- The byte at index `i`. -/
@[inline]
def get (c : Cells) (i : Nat) (h : i < c.size) : UInt8 :=
  have hp := c.page_lt h
  have hm := c.mod_lt_page h hp
  c.pages[i / pageSize][i % pageSize]

/-- The byte at index `i`, or `v` behind the end. -/
def getD (c : Cells) (i : Nat) (v : UInt8) : UInt8 := if h : i < c.size then c.get i h else v

/-- The row with `v` at index `i`. An index behind the end changes nothing. -/
@[inline]
def set : Cells → Nat → UInt8 → Cells
  | ⟨pages, size, size_pages, size_page⟩, i, v =>
    { pages := pages.modify (i / pageSize) fun page => Page.write page (i % pageSize) v
      size
      size_pages := by simpa using size_pages
      size_page k h := by
        have hk : k < pages.size := by simpa using h
        rw [Array.getElem_modify]
        split <;> simp [size_page k hk] }

@[simp] theorem size_blank (size : Nat) : (blank size).size = size := rfl

@[simp] theorem size_set (c : Cells) (i : Nat) (v : UInt8) : (c.set i v).size = c.size := rfl

@[simp] theorem get_blank {size i : Nat} (h : i < (blank size).size) :
    (blank size).get i h = 0 := by
  simp only [get, blank, Array.getElem_push]
  split
  · simp [Page.blank]
  · simp

theorem get_set (c : Cells) (i : Nat) (v : UInt8) {j : Nat} (h : j < (c.set i v).size) :
    (c.set i v).get j h = if i = j then v else c.get j (c.size_set i v ▸ h) := by
  replace h := c.size_set i v ▸ h
  have hi := Nat.div_add_mod i pageSize
  have hj := Nat.div_add_mod j pageSize
  have hp := c.page_lt h
  have hm := c.mod_lt_page h hp
  obtain ⟨pages, size, size_pages, size_page⟩ := c
  simp only [get, set, Array.getElem_modify]
  by_cases hd : i / pageSize = j / pageSize
  · have hw := Page.getElem_write pages[j / pageSize] (i % pageSize) v hm (by simpa using hm)
    rw [hd] at hi
    by_cases hij : i = j
    · subst hij
      simpa using hw
    · rw [if_neg (by omega)] at hw
      simpa only [if_pos hd, if_neg hij] using hw
  · have hij : i ≠ j := fun e => hd (by rw [e])
    simp only [if_neg hd, if_neg hij]

theorem getD_set (c : Cells) {i : Nat} (h : i < c.size) (j : Nat) (v d : UInt8) :
    (c.set i v).getD j d = if i = j then v else c.getD j d := by
  unfold getD
  by_cases hj : j < c.size
  · rw [dif_pos (show j < (c.set i v).size from hj), dif_pos hj, get_set]
  · rw [dif_neg (show ¬ j < (c.set i v).size from hj), dif_neg hj, if_neg (by omega)]

/-- Two rows of one size with the same bytes are the same. -/
theorem ext_get {c d : Cells} (hs : c.size = d.size)
    (h : ∀ (i : Nat) (hc : i < c.size) (hd : i < d.size), c.get i hc = d.get i hd) : c = d := by
  have hpages : c.pages = d.pages := by
    have hp : c.pages.size = d.pages.size := by rw [c.size_pages, d.size_pages, hs]
    refine Array.ext hp fun k hk hk' => ByteArray.ext_getElem ?_ fun j hj hj' => ?_
    · rw [c.size_page, d.size_page, hs]
    · have hb := c.size_page k hk
      have hd : (k * pageSize + j) / pageSize = k := by
        rw [Nat.add_comm, Nat.add_mul_div_right _ _ (by decide), Nat.div_eq_of_lt (by omega),
          Nat.zero_add]
      have hm : (k * pageSize + j) % pageSize = j := by
        rw [Nat.add_comm, Nat.add_mul_mod_self_right, Nat.mod_eq_of_lt (by omega)]
      have := h (k * pageSize + j) (by omega) (by omega)
      simpa only [get, hd, hm] using this
  obtain ⟨cPages, cSize, _, _⟩ := c
  obtain ⟨dPages, dSize, _, _⟩ := d
  obtain rfl : cSize = dSize := hs
  obtain rfl : cPages = dPages := hpages
  rfl

/-- The bytes that are not zero, each with its index. Blank pages are passed over. -/
def nonzero (c : Cells) : List (Nat × UInt8) :=
  c.pages.size.foldRev (fun k h rest =>
    let page := c.pages[k]
    if page.size = pageSize ∧ page = Page.blank then rest
    else page.size.foldRev (fun i hi rest =>
      if page[i] = 0 then rest else (k * pageSize + i, page[i]) :: rest) rest) []

/-- The first `count` bytes. -/
def take (c : Cells) (count : Nat) : List UInt8 :=
  (min count c.size).foldRev (fun i h rest => c.get i (by omega) :: rest) []

end Cells

end TapeLang
