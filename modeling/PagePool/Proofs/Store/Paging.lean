import PagePool.Proofs.Store.PageArray
import PagePool.Proofs.Store.Stored

namespace PagePool

/-- Files, and the handle through which one of them is used. -/
structure Paging where
  files : Files
  handle? : Option PageFile

namespace Paging

/-- A handle that is opened takes the place of the one before. -/
def adopt (s : Paging) : Except Error (PageFile × Files) → Option (Except Error PageAnswer) × Paging
  | .error e => (some (.error e), s)
  | .ok (f, files) => (some (.ok (.opened f.pageCount)), ⟨files, some f⟩)

/-- Without a handle there is nothing to ask for a page. -/
def use (s : Paging) (call : PageFile → Except Error PageAnswer × Paging) :
    Option (Except Error PageAnswer) × Paging :=
  match s.handle? with
  | none => (none, s)
  | some f => ((call f).map some id)

def perform (name : String) (pageSize : Nat) (s : Paging) :
    PageCall → Option (Except Error PageAnswer) × Paging
  | .create => s.adopt (PageFile.create s.files name pageSize)
  | .openExisting =>
    s.adopt ((PageFile.openExisting s.files name pageSize).map fun f => (f, s.files))
  | .openOrCreate => s.adopt (PageFile.openOrCreate s.files name pageSize)
  | .close => (some (.ok .done), { s with handle? := none })
  | .allocate => s.use fun f =>
    match f.allocate s.files with
    | (.error e, files) => (.error e, { s with files })
    | (.ok (n, f), files) => (.ok (.allocated n), ⟨files, some f⟩)
  | .read n => s.use fun f => ((f.read s.files n).map .bytes, s)
  | .write n data => s.use fun f =>
    match f.write s.files n data with
    | .error e => (.error e, s)
    | .ok files => (.ok .done, { s with files })

end Paging

/-- An array that is there or not, and whether it is in use. -/
structure ArrayPaging where
  array? : Option PageArray
  isOpen : Bool

namespace ArrayPaging

def use (s : ArrayPaging) (call : PageArray → Except Error PageAnswer × PageArray) :
    Option (Except Error PageAnswer) × ArrayPaging :=
  match s.isOpen, s.array? with
  | true, some a => (call a).map some fun a => ⟨some a, true⟩
  | _, _ => (none, s)

def perform (pageSize : Nat) (s : ArrayPaging) :
    PageCall → Option (Except Error PageAnswer) × ArrayPaging
  | .create =>
    match s.array? with
    | none => (some (.ok (.opened 0)), ⟨some .empty, true⟩)
    | some _ => (some (.error (.io .alreadyExists)), s)
  | .openExisting =>
    match s.array? with
    | none => (some (.error (.io .notFound)), s)
    | some a => (some (.ok (.opened a.count)), ⟨some a, true⟩)
  | .openOrCreate =>
    match s.array? with
    | none => (some (.ok (.opened 0)), ⟨some .empty, true⟩)
    | some a => (some (.ok (.opened a.count)), ⟨some a, true⟩)
  | .close => (some (.ok .done), { s with isOpen := false })
  | .allocate => s.use fun a => a.allocate pageSize
  | .read n => s.use fun a => (a.read n, a)
  | .write n data => s.use fun a => a.write pageSize n data

end ArrayPaging

/-- Calls in order, and their answers. A violated precondition ends the run. -/
def performCalls {σ : Type} (perform : σ → PageCall → Option (Except Error PageAnswer) × σ) :
    σ → List PageCall → List (Option (Except Error PageAnswer)) × σ
  | s, [] => ([], s)
  | s, c :: cs =>
    match perform s c with
    | (some (.error .misuse), s) => ([some (.error .misuse)], s)
    | (r, s) => (performCalls perform s cs).map (r :: ·) id

/-- The calls to a file that nobody has opened yet. -/
def Paging.run (name : String) (pageSize : Nat) (fs : Files) (calls : List PageCall) :
    List (Option (Except Error PageAnswer)) × Paging :=
  performCalls (Paging.perform name pageSize) ⟨fs, none⟩ calls

/-- The calls to the array that the bytes of a file are. -/
def ArrayPaging.run (pageSize : Nat) (bytes? : Option Bytes) (calls : List PageCall) :
    List (Option (Except Error PageAnswer)) × ArrayPaging :=
  performCalls (ArrayPaging.perform pageSize) ⟨bytes?.map (.ofBytes pageSize), false⟩ calls

section Calls

variable {σ : Type} {perform : σ → PageCall → Option (Except Error PageAnswer) × σ} {s : σ}
  {c : PageCall}

theorem performCalls_of_misuse (h : (perform s c).1 = some (.error .misuse))
    (cs : List PageCall) :
    performCalls perform s (c :: cs) = ([some (.error .misuse)], (perform s c).2) := by
  rcases hp : perform s c with ⟨r, s'⟩
  rw [hp] at h
  obtain rfl : r = some (.error .misuse) := h
  simp only [performCalls, hp]

theorem performCalls_of_ne (h : (perform s c).1 ≠ some (.error .misuse)) (cs : List PageCall) :
    performCalls perform s (c :: cs) =
      ((perform s c).1 :: (performCalls perform (perform s c).2 cs).1,
        (performCalls perform (perform s c).2 cs).2) := by
  rcases hp : perform s c with ⟨r, s'⟩
  rw [hp] at h
  rw [performCalls, hp]
  split
  · rename_i he
    exact absurd (Prod.mk.inj he).1 h
  · rename_i r' s'' _ he
    obtain ⟨rfl, rfl⟩ := Prod.mk.inj he
    rfl

end Calls

namespace Paging

variable {name : String} {pageSize : Nat} {fs : Files} {s : Paging} {d : ArrayPaging}
  {a : PageArray}

/-- The file holds the bytes of the array, the handle counts its pages, and all other files are as
they were in `fs`. -/
structure Shows (name : String) (pageSize : Nat) (fs : Files) (s : Paging) (d : ArrayPaging) :
    Prop where
  file : s.files.get? name = d.array?.map PageArray.bytes
  whole : ∀ a, d.array? = some a → a.Whole pageSize
  handle : s.handle? =
    if d.isOpen then d.array?.map fun a => ⟨name, pageSize, a.count⟩ else none
  others : ∀ other, other ≠ name → s.files.get? other = fs.get? other

/-- A step of the files and one of the array answer the same, and if the step violates no
precondition the files show the array again. -/
def Agree (name : String) (pageSize : Nat) (fs : Files)
    (r : Option (Except Error PageAnswer) × Paging)
    (r' : Option (Except Error PageAnswer) × ArrayPaging) : Prop :=
  r.1 = r'.1 ∧ (r'.1 ≠ some (.error .misuse) → Shows name pageSize fs r.2 r'.2)

theorem bytes_of_get? {files : Files} {bs : Bytes} (h : files.get? name = some bs) :
    files.bytes name = bs := by
  rw [Files.bytes, h]
  rfl

namespace Shows

variable (h : Shows name pageSize fs s d)

include h

theorem answer (r : Option (Except Error PageAnswer)) :
    Agree name pageSize fs (r, s) (r, d) := ⟨rfl, fun _ => h⟩

theorem put (bs : Bytes) (other : String) (hne : other ≠ name) :
    (s.files.put name bs).get? other = fs.get? other :=
  (Files.get?_put_of_ne _ _ hne).trans (h.others other hne)

omit h in
theorem appendZeros_eq {files : Files} (hwhole : a.Whole pageSize)
    (hbytes : files.bytes name = a.bytes) :
    (PageFile.mk name pageSize a.count).appendZeros files =
      files.put name (PageArray.mk (a.pages ++ [Bytes.zeros pageSize]) []).bytes := by
  rw [← hwhole.overwrite_bytes_end, ← hwhole.toNat_count, ← hbytes]
  rfl

omit h in
/-- The file and the handle, once they are those of an array in use. -/
theorem ofArray {files : Files} (hfile : files.get? name = some a.bytes)
    (hothers : ∀ other, other ≠ name → files.get? other = fs.get? other)
    (hwhole : a.Whole pageSize) :
    Shows name pageSize fs ⟨files, some ⟨name, pageSize, a.count⟩⟩ ⟨some a, true⟩ := by
  refine ⟨hfile, fun b hb => ?_, rfl, hothers⟩
  obtain rfl := Option.some.inj hb
  exact hwhole

/-! Opening. -/

theorem create (hsize : 0 < pageSize) : Agree name pageSize fs (s.perform name pageSize .create)
    (d.perform pageSize .create) := by
  have hfile := h.file
  simp only [perform, ArrayPaging.perform, PageFile.create]
  cases hd : d.array? with
  | none =>
    rw [hd, Option.map_none] at hfile
    rw [hfile]
    exact ⟨rfl, fun _ => ofArray (Files.get?_put_self _ _ _) (h.put _)
      (PageArray.whole_empty hsize)⟩
  | some a =>
    rw [hd, Option.map_some] at hfile
    rw [hfile]
    exact h.answer _

theorem openExisting_eq (hsize : 0 < pageSize) (hd : d.array? = some a) :
    PageFile.openExisting s.files name pageSize = .ok ⟨name, pageSize, a.count⟩ := by
  have hfile := h.file
  rw [hd, Option.map_some] at hfile
  simp only [PageFile.openExisting, hfile]
  rw [if_neg (Nat.pos_iff_ne_zero.1 hsize), (h.whole a hd).length_bytes_div]
  rfl

theorem adopt (hd : d.array? = some a) :
    Agree name pageSize fs (s.adopt (.ok (⟨name, pageSize, a.count⟩, s.files)))
      (some (.ok (.opened a.count)), ⟨some a, true⟩) := by
  have hfile := h.file
  rw [hd] at hfile
  exact ⟨rfl, fun _ => ofArray hfile h.others (h.whole a hd)⟩

theorem openExisting (hsize : 0 < pageSize) :
    Agree name pageSize fs (s.perform name pageSize .openExisting)
      (d.perform pageSize .openExisting) := by
  simp only [perform, ArrayPaging.perform]
  cases hd : d.array? with
  | none =>
    have hfile := h.file
    rw [hd, Option.map_none] at hfile
    simp only [PageFile.openExisting, hfile]
    exact h.answer _
  | some a =>
    rw [h.openExisting_eq hsize hd]
    exact h.adopt hd

theorem openOrCreate (hsize : 0 < pageSize) :
    Agree name pageSize fs (s.perform name pageSize .openOrCreate)
      (d.perform pageSize .openOrCreate) := by
  have hfile := h.file
  cases hd : d.array? with
  | none =>
    have hcreate := h.create hsize
    rw [hd, Option.map_none] at hfile
    simp only [perform, ArrayPaging.perform, PageFile.openOrCreate, hd, hfile] at hcreate ⊢
    exact hcreate
  | some a =>
    rw [hd, Option.map_some] at hfile
    simp only [perform, ArrayPaging.perform, PageFile.openOrCreate, hd, hfile]
    rw [h.openExisting_eq hsize hd]
    exact h.adopt hd

/-! The calls to an open handle. -/

/-- Either nothing is open on both sides, or a handle on the file and the array behind it. -/
theorem use (call : PageFile → Except Error PageAnswer × Paging)
    (call' : PageArray → Except Error PageAnswer × PageArray)
    (hcall : ∀ a, a.Whole pageSize → s.files.get? name = some a.bytes →
      s.handle? = some ⟨name, pageSize, a.count⟩ →
      (call ⟨name, pageSize, a.count⟩).1 = (call' a).1 ∧
        ((call' a).1 ≠ .error .misuse →
          Shows name pageSize fs (call ⟨name, pageSize, a.count⟩).2 ⟨some (call' a).2, true⟩)) :
    Agree name pageSize fs (s.use call) (d.use call') := by
  have hhandle := h.handle
  have hfile := h.file
  obtain ⟨array?, isOpen⟩ := d
  cases isOpen with
  | false =>
    simp only [Bool.false_eq_true, if_false] at hhandle
    simp only [Paging.use, hhandle, ArrayPaging.use]
    exact h.answer _
  | true =>
    cases array? with
    | none =>
      simp only [if_true, Option.map_none] at hhandle
      simp only [Paging.use, hhandle, ArrayPaging.use]
      exact h.answer _
    | some a =>
      simp only [if_true, Option.map_some] at hhandle hfile
      obtain ⟨hanswer, hshows⟩ := hcall a (h.whole a rfl) hfile hhandle
      simp only [Paging.use, hhandle, ArrayPaging.use]
      refine ⟨congrArg some hanswer, fun hne => hshows fun he => hne ?_⟩
      exact congrArg some he

theorem allocate : Agree name pageSize fs (s.perform name pageSize .allocate)
    (d.perform pageSize .allocate) := by
  refine h.use _ _ fun a hwhole hfile _ => ?_
  have hbytes := bytes_of_get? hfile
  simp only [PageFile.allocate, PageArray.allocate, hwhole.toNat_count,
    appendZeros_eq hwhole hbytes]
  by_cases hroom : a.pages.length + 1 < UInt32.size
  · -- there is room for one more number, so the count does not wrap
    have hcount : a.count + 1 = (PageArray.mk (a.pages ++ [Bytes.zeros pageSize]) []).count := by
      rw [PageArray.count, PageArray.count, List.length_append]
      exact (UInt32.ofNat_add _ _).symm
    rw [if_pos hroom, if_pos hroom, hcount]
    exact ⟨rfl, fun _ => ofArray (Files.get?_put_self _ _ _) (h.put _) (hwhole.push hroom)⟩
  · rw [if_neg hroom, if_neg hroom]
    exact ⟨rfl, fun hne => absurd rfl hne⟩

theorem read (n : UInt32) : Agree name pageSize fs (s.perform name pageSize (.read n))
    (d.perform pageSize (.read n)) := by
  refine h.use _ _ fun a hwhole hfile hhandle => ?_
  have hbytes := bytes_of_get? hfile
  obtain ⟨files, handle?⟩ := s
  obtain rfl : handle? = some ⟨name, pageSize, a.count⟩ := hhandle
  refine ⟨?_, fun _ => ofArray hfile h.others hwhole⟩
  cases hpage : a.pages[n.toNat]? with
  | none =>
    have hn : ¬ n < a.count := fun hn =>
      Nat.not_lt.2 (List.getElem?_eq_none_iff.1 hpage) (hwhole.lt_count.1 hn)
    simp only [PageFile.read, PageFile.checkRange, if_neg hn, PageArray.read, hpage]
    rfl
  | some page =>
    have hn : n < a.count := hwhole.lt_count.2 (List.getElem?_eq_some_iff.1 hpage).1
    -- the file has all the pages that its handle counts, so no read falls short
    have hfits : (PageFile.mk name pageSize a.count).Fits files := by
      simp only [PageFile.Fits, PageFile.size, PageFile.offset, hbytes, hwhole.toNat_count,
        hwhole.length_bytes]
      exact Nat.le_add_right _ _
    have hdata : (PageFile.mk name pageSize a.count).pageBytes files n = page := by
      rw [PageFile.pageBytes, hbytes]
      exact hwhole.slice_bytes hpage
    simp only [PageFile.read_eq hfits hn, hdata, PageArray.read, hpage]
    rfl

theorem write (n : UInt32) (data : Bytes) :
    Agree name pageSize fs (s.perform name pageSize (.write n data))
      (d.perform pageSize (.write n data)) := by
  refine h.use _ _ fun a hwhole hfile hhandle => ?_
  have hbytes := bytes_of_get? hfile
  obtain ⟨files, handle?⟩ := s
  obtain rfl : handle? = some ⟨name, pageSize, a.count⟩ := hhandle
  simp only [PageFile.write, PageFile.checkRange, PageArray.write]
  by_cases hn : n.toNat < a.pages.length
  · rw [if_pos (hwhole.lt_count.2 hn), if_pos hn]
    by_cases hdata : data.length = pageSize
    · rw [if_pos hdata, if_pos hdata]
      refine ⟨rfl, fun _ => ?_⟩
      have hput := hwhole.overwrite_bytes hn hdata
      have hcount : a.count = { a with pages := a.pages.set n.toNat data }.count := by
        rw [PageArray.count, PageArray.count, List.length_set]
      rw [hcount]
      refine ofArray ?_ (h.put _) (hwhole.set n.toNat hdata)
      rw [Files.get?_put_self, hbytes]
      exact congrArg some hput
    · rw [if_neg hdata, if_neg hdata]
      exact ⟨rfl, fun _ => ofArray hfile h.others hwhole⟩
  · rw [if_neg fun hlt => hn (hwhole.lt_count.1 hlt), if_neg hn]
    exact ⟨rfl, fun _ => ofArray hfile h.others hwhole⟩

/-- Every call is answered as by the array, and leaves the file as the array is left. -/
theorem perform (hsize : 0 < pageSize) (c : PageCall) :
    Agree name pageSize fs (s.perform name pageSize c) (d.perform pageSize c) := by
  cases c with
  | create => exact h.create hsize
  | openExisting => exact h.openExisting hsize
  | openOrCreate => exact h.openOrCreate hsize
  | close => exact ⟨rfl, fun _ => ⟨h.file, h.whole, rfl, h.others⟩⟩
  | allocate => exact h.allocate
  | read n => exact h.read n
  | write n data => exact h.write n data

theorem performCalls (hsize : 0 < pageSize) (calls : List PageCall) :
    (performCalls (Paging.perform name pageSize) s calls).1 =
        (performCalls (ArrayPaging.perform pageSize) d calls).1 ∧
      (some (.error .misuse) ∉ (PagePool.performCalls (ArrayPaging.perform pageSize) d calls).1 →
        Shows name pageSize fs (PagePool.performCalls (Paging.perform name pageSize) s calls).2
          (PagePool.performCalls (ArrayPaging.perform pageSize) d calls).2) := by
  induction calls generalizing s d with
  | nil => exact ⟨rfl, fun _ => h⟩
  | cons c cs ih =>
    obtain ⟨hanswer, hshows⟩ := h.perform hsize c
    by_cases hmisuse : (d.perform pageSize c).1 = some (.error .misuse)
    -- what violates a precondition does so on both sides, and ends both runs
    · rw [performCalls_of_misuse hmisuse, performCalls_of_misuse (hanswer.trans hmisuse)]
      exact ⟨rfl, fun hnot => absurd List.mem_cons_self hnot⟩
    · obtain ⟨hrest, hfinal⟩ := ih (hshows hmisuse)
      rw [performCalls_of_ne hmisuse, performCalls_of_ne (hanswer ▸ hmisuse), hanswer, hrest]
      exact ⟨rfl, fun hnot => hfinal fun hmem => hnot (List.mem_cons_of_mem _ hmem)⟩

end Shows

theorem shows_start (hsize : 0 < pageSize)
    (hcount : ∀ bs, fs.get? name = some bs → bs.length / pageSize < UInt32.size) :
    Shows name pageSize fs ⟨fs, none⟩ ⟨(fs.get? name).map (.ofBytes pageSize), false⟩ := by
  refine ⟨?_, fun a ha => ?_, rfl, fun _ _ => rfl⟩
  · simp only [Option.map_map, Function.comp_def, PageArray.bytes_ofBytes, Option.map_id']
  · obtain ⟨bs, hbs, rfl⟩ := Option.map_eq_some_iff.1 ha
    exact PageArray.whole_ofBytes hsize (hcount bs hbs)

namespace Shows

variable {f f' : PageFile} {n : UInt32} {files : Files}

/-- What an open handle is on. -/
theorem exists_array (h : Shows name pageSize fs s d) (hf : s.handle? = some f) :
    ∃ a : PageArray, a.Whole pageSize ∧ s.files.bytes name = a.bytes ∧
      f = ⟨name, pageSize, a.count⟩ := by
  have hhandle := h.handle
  rw [hf] at hhandle
  split at hhandle
  · obtain ⟨a, ha, rfl⟩ := Option.map_eq_some_iff.1 hhandle.symm
    exact ⟨a, h.whole a ha, bytes_of_get? (h.file.trans (congrArg _ ha)), rfl⟩
  · contradiction

/-- The handle counts the whole pages of the file. -/
theorem pageCount_eq (h : Shows name pageSize fs s d) (hf : s.handle? = some f) :
    f.pageCount.toNat = (s.files.bytes name).length / pageSize := by
  obtain ⟨a, hwhole, hbytes, rfl⟩ := h.exists_array hf
  rw [hbytes, hwhole.length_bytes_div, hwhole.toNat_count]

/-- A new page ends the file, whatever stood behind the pages before. -/
theorem length_of_allocate (h : Shows name pageSize fs s d) (hf : s.handle? = some f)
    (hnew : f.allocate s.files = (.ok (n, f'), files)) :
    n = f.pageCount ∧ (files.bytes name).length = f'.size := by
  obtain ⟨a, hwhole, hbytes, rfl⟩ := h.exists_array hf
  unfold PageFile.allocate at hnew
  split at hnew
  · rename_i hroom
    rw [hwhole.toNat_count] at hroom
    obtain ⟨hok, rfl⟩ := Prod.mk.inj hnew
    obtain ⟨rfl, rfl⟩ := Prod.mk.inj (Except.ok.inj hok)
    have hcount : (a.count + 1).toNat = a.pages.length + 1 := by
      rw [UInt32.toNat_add, hwhole.toNat_count]
      exact Nat.mod_eq_of_lt hroom
    refine ⟨rfl, ?_⟩
    rw [appendZeros_eq hwhole hbytes, PageFile.bytes_put_self, (hwhole.push hroom).length_bytes,
      PageFile.size, PageFile.offset, hcount, List.length_append]
    rfl
  · cases (Prod.mk.inj hnew).1

end Shows

/-- A file of pages is a growable array of pages. However it is opened, used, closed and opened
again through one handle, each call answers as the array does; the array starts as the whole pages
of the file, and what the file ends with. The file keeps the bytes of the array's pages, and the
handle counts them; a page that is allocated ends the file. Page numbers have 32 bits, and the
calls come to an end where they run out. -/
theorem answers_as_array (hsize : 0 < pageSize)
    (hcount : ∀ bs, fs.get? name = some bs → bs.length / pageSize < 2 ^ 32)
    (calls : List PageCall) :
    (run name pageSize fs calls).1 = (ArrayPaging.run pageSize (fs.get? name) calls).1 ∧
      (some (.error .misuse) ∉ (run name pageSize fs calls).1 →
        Shows name pageSize fs (run name pageSize fs calls).2
          (ArrayPaging.run pageSize (fs.get? name) calls).2 ∧
        ∀ f, (run name pageSize fs calls).2.handle? = some f →
          f.pageCount.toNat =
            ((run name pageSize fs calls).2.files.bytes name).length / pageSize ∧
          ∀ n f' files, f.allocate (run name pageSize fs calls).2.files = (.ok (n, f'), files) →
            n = f.pageCount ∧ (files.bytes name).length = f'.size) := by
  obtain ⟨hanswers, hshows⟩ := (shows_start hsize hcount).performCalls hsize calls
  refine ⟨hanswers, fun hmisuse => ?_⟩
  have hfinal := hshows (hanswers ▸ hmisuse)
  refine ⟨hfinal, fun f hf => ⟨hfinal.pageCount_eq hf, ?_⟩⟩
  exact fun n f' files => hfinal.length_of_allocate hf

/-- A file of one page of two bytes, and a byte of a page that was not written whole. -/
def tornFile : Files := ⟨[("t", [1, 2, 3])]⟩

/-- The odd byte is gone once a page is allocated in its place. -/
theorem odd_byte_covered :
    (run "t" 2 tornFile [.openExisting, .read 1, .allocate, .read 1, .write 1 [7], .write 1 [7, 8],
      .openOrCreate, .read 0, .read 1]).1 =
    [some (.ok (.opened 1)), some (.error (.pageOutOfRange 1 1)), some (.ok (.allocated 1)),
      some (.ok (.bytes [0, 0])), some (.error (.pageSizeMismatch 2 1)), some (.ok .done),
      some (.ok (.opened 2)), some (.ok (.bytes [1, 2])), some (.ok (.bytes [7, 8]))] := by
  have hcount : ∀ bs, tornFile.get? "t" = some bs → bs.length / 2 < 2 ^ 32 := by
    intro bs hbs
    obtain rfl : [1, 2, 3] = bs := Option.some.inj hbs
    decide
  exact (answers_as_array (by decide) hcount _).1.trans rfl

end Paging

end PagePool
