import PagePool.Proofs.Bytes
import PagePool.Store.PageFile

namespace PagePool

open Bytes

/-- A call to the one handle of a file of pages, or one that opens or closes it. -/
inductive PageCall where
  | create
  | openExisting
  | openOrCreate
  | close
  | allocate
  | read (n : UInt32)
  | write (n : UInt32) (data : Bytes)

inductive PageAnswer where
  | opened (pageCount : UInt32)
  | allocated (n : UInt32)
  | bytes (data : Bytes)
  | done
  deriving DecidableEq

/-- A growable array of pages, and bytes behind it that are too few for a page. -/
structure PageArray where
  pages : List Bytes
  tail : Bytes

namespace PageArray

def empty : PageArray := ⟨[], []⟩

/-- The first `n` pages of a byte string. -/
def cut (pageSize : Nat) : (n : Nat) → Bytes → List Bytes
  | 0, _ => []
  | n + 1, bs => bs.take pageSize :: cut pageSize n (bs.drop pageSize)

def ofBytes (pageSize : Nat) (bs : Bytes) : PageArray :=
  ⟨cut pageSize (bs.length / pageSize) bs, bs.drop (bs.length / pageSize * pageSize)⟩

def bytes (a : PageArray) : Bytes := a.pages.flatten ++ a.tail

def count (a : PageArray) : UInt32 := UInt32.ofNat a.pages.length

/-- All pages have the one size, and can be counted. -/
structure Whole (a : PageArray) (pageSize : Nat) : Prop where
  length_eq : ∀ page ∈ a.pages, page.length = pageSize
  tail_lt : a.tail.length < pageSize
  count_lt : a.pages.length < UInt32.size

/-- The page after the last one that has a number is refused. -/
def allocate (a : PageArray) (pageSize : Nat) : Except Error PageAnswer × PageArray :=
  if a.pages.length + 1 < UInt32.size then
    (.ok (.allocated a.count), ⟨a.pages ++ [zeros pageSize], []⟩)
  else (.error .misuse, a)

def read (a : PageArray) (n : UInt32) : Except Error PageAnswer :=
  match a.pages[n.toNat]? with
  | some page => .ok (.bytes page)
  | none => .error (.pageOutOfRange n a.count)

def write (a : PageArray) (pageSize : Nat) (n : UInt32) (data : Bytes) :
    Except Error PageAnswer × PageArray :=
  if n.toNat < a.pages.length then
    if data.length = pageSize then (.ok .done, { a with pages := a.pages.set n.toNat data })
    else (.error (.pageSizeMismatch pageSize data.length), a)
  else (.error (.pageOutOfRange n a.count), a)

end PageArray

namespace PageArray

variable {a : PageArray} {pageSize n : Nat} {bs data page : Bytes} {pages : List Bytes}

theorem length_flatten (h : ∀ page ∈ pages, page.length = pageSize) :
    pages.flatten.length = pages.length * pageSize := by
  induction pages with
  | nil => simp
  | cons page pages ih =>
    obtain ⟨hpage, hpages⟩ := List.forall_mem_cons.1 h
    rw [List.flatten_cons, List.length_append, hpage, ih hpages, List.length_cons, Nat.succ_mul,
      Nat.add_comm]

/-- The bytes of the pages before a page, of the page, and of all after it. -/
theorem flatten_eq_of_getElem? (h : pages[n]? = some page) :
    pages.flatten = (pages.take n).flatten ++ (page ++ (pages.drop (n + 1)).flatten) := by
  obtain ⟨hn, rfl⟩ := List.getElem?_eq_some_iff.1 h
  rw [← List.flatten_cons, ← List.drop_eq_getElem_cons hn, ← List.flatten_append,
    List.take_append_drop]

theorem length_cut (pageSize n : Nat) (bs : Bytes) : (cut pageSize n bs).length = n := by
  induction n generalizing bs with
  | zero => rfl
  | succ n ih => rw [cut, List.length_cons, ih]

theorem length_of_mem_cut (h : n * pageSize ≤ bs.length) (hpage : page ∈ cut pageSize n bs) :
    page.length = pageSize := by
  induction n generalizing bs with
  | zero => contradiction
  | succ n ih =>
    rw [Nat.succ_mul] at h
    rcases List.mem_cons.1 hpage with rfl | hpage
    · exact List.length_take_of_le (by omega)
    · refine ih ?_ hpage
      rw [List.length_drop]
      omega

theorem flatten_cut (pageSize n : Nat) (bs : Bytes) :
    (cut pageSize n bs).flatten ++ bs.drop (n * pageSize) = bs := by
  induction n generalizing bs with
  | zero => rw [Nat.zero_mul]; rfl
  | succ n ih =>
    have hdrop : bs.drop ((n + 1) * pageSize) = (bs.drop pageSize).drop (n * pageSize) := by
      rw [List.drop_drop, Nat.succ_mul, Nat.add_comm]
    rw [cut, List.flatten_cons, List.append_assoc, hdrop, ih, List.take_append_drop]

/-- No byte of a file is lost when it is taken for an array of pages. -/
theorem bytes_ofBytes (pageSize : Nat) (bs : Bytes) : (ofBytes pageSize bs).bytes = bs :=
  flatten_cut _ _ _

theorem whole_ofBytes (hsize : 0 < pageSize) (h : bs.length / pageSize < UInt32.size) :
    (ofBytes pageSize bs).Whole pageSize := by
  refine ⟨fun page => length_of_mem_cut (Nat.div_mul_le_self _ _), ?_, ?_⟩
  · have hrest := Nat.mod_lt bs.length hsize
    have hsplit := Nat.div_add_mod' bs.length pageSize
    simp only [ofBytes, List.length_drop]
    omega
  · rwa [ofBytes, length_cut]

theorem whole_empty (hsize : 0 < pageSize) : empty.Whole pageSize :=
  ⟨nofun, hsize, by decide⟩

namespace Whole

variable (h : a.Whole pageSize)

include h

theorem toNat_count : a.count.toNat = a.pages.length := by
  rw [count, UInt32.toNat_ofNat', Nat.mod_eq_of_lt h.count_lt]

theorem lt_count {n : UInt32} : n < a.count ↔ n.toNat < a.pages.length := by
  rw [UInt32.lt_iff_toNat_lt, h.toNat_count]

theorem length_bytes : a.bytes.length = a.pages.length * pageSize + a.tail.length := by
  rw [bytes, List.length_append, length_flatten h.length_eq]

/-- The pages of the array are the whole pages of its bytes. -/
theorem length_bytes_div : a.bytes.length / pageSize = a.pages.length := by
  have hpos : 0 < pageSize := Nat.zero_lt_of_lt h.tail_lt
  rw [h.length_bytes, Nat.add_comm, Nat.add_mul_div_right _ _ hpos, Nat.div_eq_of_lt h.tail_lt,
    Nat.zero_add]

theorem length_take (hn : n ≤ a.pages.length) :
    (a.pages.take n).flatten.length = n * pageSize := by
  rw [length_flatten fun page hpage => h.length_eq page (List.mem_of_mem_take hpage),
    List.length_take_of_le hn]

theorem slice_bytes (hpage : a.pages[n]? = some page) :
    slice a.bytes (n * pageSize) pageSize = page := by
  obtain ⟨hn, -⟩ := List.getElem?_eq_some_iff.1 hpage
  rw [bytes, flatten_eq_of_getElem? hpage, List.append_assoc, List.append_assoc,
    ← h.length_take (Nat.le_of_lt hn), ← h.length_eq page (List.mem_of_getElem? hpage)]
  exact slice_append _ _ _

theorem overwrite_bytes (hn : n < a.pages.length) (hdata : data.length = pageSize) :
    overwrite a.bytes (n * pageSize) data = { a with pages := a.pages.set n data }.bytes := by
  -- the new page is as long as the old one, so what stands around it stays
  have hold : (a.pages[n]).length = pageSize := h.length_eq _ (List.getElem_mem hn)
  have hset : a.pages.set n data = a.pages.take n ++ data :: a.pages.drop (n + 1) := by
    rw [List.set_eq_take_append_cons_drop, if_pos hn]
  rw [bytes, bytes, flatten_eq_of_getElem? (List.getElem?_eq_getElem hn), List.append_assoc,
    List.append_assoc, ← h.length_take (Nat.le_of_lt hn), overwrite_append (hdata.trans hold.symm)]
  simp only [hset, List.flatten_append, List.flatten_cons, List.append_assoc]

/-- The new page covers whatever the file ended with. -/
theorem overwrite_bytes_end :
    overwrite a.bytes (a.pages.length * pageSize) (zeros pageSize) =
      (PageArray.mk (a.pages ++ [zeros pageSize]) []).bytes := by
  have htail : a.tail.length ≤ (zeros pageSize).length := by
    rw [length_zeros]
    exact Nat.le_of_lt h.tail_lt
  rw [bytes, bytes, ← length_flatten h.length_eq, overwrite_end htail]
  simp only [List.flatten_append, List.flatten_cons, List.flatten_nil, List.append_nil]

theorem set (n : Nat) (hdata : data.length = pageSize) :
    { a with pages := a.pages.set n data }.Whole pageSize := by
  refine ⟨fun page hpage => ?_, h.tail_lt, by rw [List.length_set]; exact h.count_lt⟩
  rcases List.mem_or_eq_of_mem_set hpage with hpage | rfl
  · exact h.length_eq page hpage
  · exact hdata

theorem push (hroom : a.pages.length + 1 < UInt32.size) :
    (PageArray.mk (a.pages ++ [zeros pageSize]) []).Whole pageSize := by
  refine ⟨fun page hpage => ?_, Nat.zero_lt_of_lt h.tail_lt, ?_⟩
  · rcases List.mem_append.1 hpage with hpage | hpage
    · exact h.length_eq page hpage
    · rw [List.mem_singleton.1 hpage, length_zeros]
  · rwa [List.length_append]

end Whole

end PageArray

end PagePool
