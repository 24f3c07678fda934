import ProjetoTSO.Codededup.Transparency

/-!
# Acknowledged writes and failed ones

A write publishes the blocks it creates before it asks for memory and before it
writes them.  If it then fails, the index holds a block under a hash its page need
not have, and the next write of the same page takes it for a page already on disk
(`retry_not_read_back`).  A write that fails without having created a block leaves
nothing behind but counters that are too high (`read_of_acknowledged`).
-/

namespace ProjetoTSO.Codededup

open CInt ByteStream Transition Chunks

/-- No memory for the write. -/
def WriteEnv.refused : WriteEnv := ⟨false, fun _ => .full⟩

/-- Everything is delivered. -/
def ReadEnv.fine : ReadEnv := ⟨fun _ => true, fun _ => .done (Fin.last 4096) pageOfA⟩

theorem ReadEnv.fine_whole (k : ℕ) : (ReadEnv.fine.pread k).Whole := Or.inl ⟨pageOfA, rfl⟩

/-! ## A page that is known, or published -/

section Single

variable {SHA512 : Page → BlockId} {fd : ℕ} {sysdata : ByteDisk.Disk} {path : Path} {page : Page}
variable {counter : ℤ}

/-- A write of one page refused its memory is one the session may be exposed to. -/
theorem exposed_single (env : WriteEnv) (whole : ∀ i, (env.pwrite i).Whole) (file : Filemeta)
    (few : file.blockList.length < 2 ^ 30) (room : counter + 1 < 2 ^ 31) :
    Exposed SHA512 {page} (Store.single fd sysdata file (.atStart (SHA512 page) counter))
      (.write file.id page.toList file.logicalSize env) := by
  have length : page.toList.length = 4096 := length_page page
  refine ⟨by omega, fun other member => ?_, whole, fun _ => ⟨hasRoom_single room, ?_⟩⟩
  · rw [bufferPages_page, List.mem_singleton] at member
    exact member
  · rw [Store.single_listAt, length]
    omega

theorem traceless_single (offset : ℤ) (env : WriteEnv) {file : Filemeta} :
    Traceless SHA512 (Store.single fd sysdata file (.atStart (SHA512 page) counter))
      (.write file.id page.toList offset env) := by
  refine fun _ => Or.inr fun hash member => ?_
  have known : (Store.single fd sysdata file (.atStart (SHA512 page) counter)).blockIndex.lookup
      (SHA512 page) = some 0 := Store.single_blockIndex _ _ _ (.atStart (SHA512 page) counter)
  rw [blockHashes_page, List.mem_singleton] at member
  rw [member, known]
  exact Option.some_ne_none 0

/-- The first write of a session, whatever becomes of it. -/
theorem exposed_first {env : WriteEnv} (whole : ∀ i, (env.pwrite i).Whole) :
    Exposed SHA512 {page} (Store.empty fd sysdata) (.write path page.toList 0 env) := by
  have fine : Undisturbed SHA512 {page} (Store.empty fd sysdata)
      (.write path page.toList 0 .fine) := undisturbed_first (Set.mem_singleton page)
  obtain ⟨bound, inData, -, -, room⟩ := fine
  exact ⟨bound, inData, whole, room⟩

/-- A write of the page without memory raises its counter. -/
theorem exec_refused (lower : 0 ≤ counter) (room : counter + 1 < 2 ^ 31) (file : Filemeta) :
    exec SHA512 (.write file.id page.toList file.logicalSize .refused)
        (Store.single fd sysdata file (.atStart (SHA512 page) counter)) =
      some (.code (-ENOMEM), Store.single fd sysdata file (.atStart (SHA512 page) (counter + 1))) := by
  have known : (Store.single fd sysdata file (.atStart (SHA512 page) counter)).blockIndex.lookup
      (SHA512 page) = some 0 := Store.single_blockIndex _ _ _ (.atStart (SHA512 page) counter)
  have refused := xmp_write_known_refused .refused
    (Store.single_fileIndex fd sysdata file _) known rfl
  rw [Store.single_files, raiseCounter_single _ _ _ _ lower room] at refused
  rw [exec, refused]
  rfl

/-- A write of the page with memory appends its block, and writes nothing. -/
theorem exec_known (lower : 0 ≤ counter) (room : counter + 1 < 2 ^ 31) :
    exec SHA512 (.write path page.toList 0 .fine)
        (Store.single fd sysdata ⟨path, 0, 0, [], true, false⟩ (.atStart (SHA512 page) counter)) =
      some (.code 4096, Store.single fd sysdata ⟨path, 0, 4096, [0], true, false⟩
        (.atStart (SHA512 page) (counter + 1))) := by
  have known : (Store.single fd sysdata ⟨path, 0, 0, [], true, false⟩
      (.atStart (SHA512 page) counter)).blockIndex.lookup (SHA512 page) = some 0 :=
    Store.single_blockIndex _ _ _ (.atStart (SHA512 page) counter)
  have values : uint64 0 = 0 ∧ uint64 4096 = 4096 ∧ int64 4096 = 4096 := by decide
  have appended := xmp_write_known .fine
    (Store.single_fileIndex fd sysdata ⟨path, 0, 0, [], true, false⟩ _) known rfl
  rw [Store.single_files, raiseCounter_single _ _ _ _ lower room] at appended
  rw [exec, appended]
  simp [growFile, Store.setFile, Store.single, values]

/-- A read of a file that is the one page. -/
theorem xmp_read_single (fd : ℕ) (sysdata : ByteDisk.Disk) (path : Path) (realSize : ℤ)
    (hash : BlockId) (counter : ℤ) :
    xmp_read path 4096 (0 : ℕ) .fine
        (Store.single fd sysdata ⟨path, realSize, 4096, [0], true, false⟩ (.atStart hash counter)) =
      some (4096, ByteDisk.read sysdata 0 4096) := by
  generalize held : Store.single fd sysdata ⟨path, realSize, 4096, [0], true, false⟩
    (.atStart hash counter) = s
  have found : s.fileIndex.lookup path = some 0 := by
    rw [← held]
    exact Store.single_fileIndex _ _ ⟨path, realSize, 4096, [0], true, false⟩ _
  have file : s.files 0 = ⟨path, realSize, 4096, [0], true, false⟩ := by
    rw [← held, Store.single_files]
  have online : s.backend_fd ≠ -1 := by
    rw [← held]
    show (fd : ℤ) ≠ -1
    omega
  have bytes : listBytes s [0] = ByteDisk.read sysdata 0 4096 := by
    rw [listBytes, List.flatMap_singleton, Store.pageOf_toList, ← held, Store.single_blocks]
    rfl
  obtain ⟨ret, buf, runs, delivered, success⟩ :=
    xmp_read_spec found online (by rw [file]; rfl) (by rw [file]; norm_num)
      (by norm_num : 4096 < 2 ^ 31) ReadEnv.fine_whole
  obtain ⟨content, length⟩ := delivered (success rfl fun _ => ⟨rfl, pageOfA, rfl⟩)
  have all := slice_all (ByteDisk.read sysdata 0 4096)
  rw [ByteDisk.length_read] at all
  rw [file, bytes, all] at content
  rw [content, ByteDisk.length_read] at length
  rw [runs, length, content]
  rfl

end Single

/-- A session in which the second of two writes of a page is refused memory. -/
theorem runs_refused (SHA512 : Page → BlockId) (fd : ℕ) (sysdata : ByteDisk.Disk) (path : Path)
    (page : Page) (short : path.bytes.length < 2 ^ 64) :
    Runs (Step SHA512 fun s call => Exposed SHA512 {page} s call ∧ Traceless SHA512 s call)
      (Store.empty fd sysdata)
      [(.write path page.toList 0 .fine, .code 4096),
        (.write path page.toList 4096 .refused, .code (-ENOMEM))]
      (Store.single fd (ByteDisk.write sysdata 0 page.toList) ⟨path, 4096, 4096, [0], true, false⟩
        (.atStart (SHA512 page) 2)) := by
  have fine : Undisturbed SHA512 {page} (Store.empty fd sysdata)
      (.write path page.toList 0 .fine) := undisturbed_first (Set.mem_singleton page)
  refine .snoc (runs_first SHA512 .fine short rfl rfl ⟨fine.exposed, fine.traceless⟩) ⟨?_, ?_, ?_⟩
  · exact exec_refused (by norm_num) (by norm_num) ⟨path, 4096, 4096, [0], true, false⟩
  · exact Store.single_fits _ _ ⟨short, by simp [FitsOff], by simp [FitsOff], by simp⟩
      (Blockmeta.atStart_fits _ (by norm_num) (by norm_num))
  · exact ⟨exposed_single .refused (fun _ => Or.inl rfl) ⟨path, 4096, 4096, [0], true, false⟩
      (by norm_num) (by norm_num), traceless_single 4096 .refused⟩

section Acknowledged

variable {SHA512 : Page → BlockId} {data : Set Page} {fd : ℕ} {sysdata : ByteDisk.Disk}
variable {history : List Event} {s : Store}

/-- **Acknowledged writes are read back.**  In a session in which memory and block
I/O may fail, but no write that has created a block fails, a read that reports no
error delivers what the acknowledged writes put into the file. -/
theorem read_of_acknowledged (injective : Set.InjOn SHA512 data)
    (run : Runs (Step SHA512 fun s call => Exposed SHA512 data s call ∧ Traceless SHA512 s call)
      (Store.empty fd sysdata) history s)
    {path : Path} {size offset : ℕ} {env : ReadEnv} {ret : ℤ} {buf : Bytes}
    (bound : size < 2 ^ 31) (whole : ∀ k, (env.pread k).Whole)
    (runs : xmp_read path size offset env s = some (ret, buf)) (success : 0 ≤ ret) :
    buf = slice (content history path) offset size ∧ ret = buf.length := by
  have faithful := Runs.faithful injective (fun _ _ both => both.1) (fun _ _ both => both.2) run
  rw [← faithful.contents]
  exact faithful.read_of_success bound whole runs success

theorem read_of_acknowledged_refused :
    ∃ ret buf, xmp_read (CString.lit "/a") 4096 (0 : ℕ) .fine
        (Store.single (3 : ℕ) (ByteDisk.write (fun _ => 0) 0 pageOfA.toList)
          ⟨CString.lit "/a", 4096, 4096, [0], true, false⟩ (.atStart digestOfA 2)) =
        some (ret, buf) ∧
      buf = slice (content [(.write (CString.lit "/a") pageOfA.toList 0 .fine, .code 4096),
        (.write (CString.lit "/a") pageOfA.toList 4096 .refused, .code (-ENOMEM))]
          (CString.lit "/a")) 0 4096 ∧ ret = buf.length := by
  have runs := xmp_read_single 3 (ByteDisk.write (fun _ => 0) 0 pageOfA.toList) (CString.lit "/a")
    4096 digestOfA 2
  have run := runs_refused (fun _ => digestOfA) 3 (fun _ => 0) (CString.lit "/a") pageOfA
    (by decide)
  exact ⟨4096, _, runs, read_of_acknowledged (Set.injOn_singleton _ pageOfA) run (by norm_num)
    ReadEnv.fine_whole runs (by norm_num)⟩

/-- A session of a failed first write and its retry. -/
theorem runs_retried (SHA512 : Page → BlockId) (fd : ℕ) (sysdata : ByteDisk.Disk) (path : Path)
    (page : Page) (short : path.bytes.length < 2 ^ 64) :
    Runs (Step SHA512 (Exposed SHA512 {page})) (Store.empty fd sysdata)
      [(.write path page.toList 0 .refused, .code (-ENOMEM)),
        (.write path page.toList 0 .fine, .code 4096)]
      (Store.single fd sysdata ⟨path, 0, 4096, [0], true, false⟩ (.atStart (SHA512 page) 2)) := by
  have failed : exec SHA512 (.write path page.toList 0 .refused) (Store.empty fd sysdata) =
      some (.code (-ENOMEM), Store.single fd sysdata ⟨path, 0, 0, [], true, false⟩
        (.atStart (SHA512 page) 1)) := by
    rw [exec, xmp_write_first_refused rfl]
    rfl
  have published : (Store.single fd sysdata ⟨path, 0, 0, [], true, false⟩
      (.atStart (SHA512 page) 1)).Fits :=
    Store.single_fits _ _ ⟨short, by simp [FitsOff], by simp [FitsOff], by simp⟩
      (Blockmeta.atStart_fits _ (by norm_num) (by norm_num))
  have retried : (Store.single fd sysdata ⟨path, 0, 4096, [0], true, false⟩
      (.atStart (SHA512 page) 2)).Fits :=
    Store.single_fits _ _ ⟨short, by simp [FitsOff], by simp [FitsOff], by simp⟩
      (Blockmeta.atStart_fits _ (by norm_num) (by norm_num))
  exact .snoc (.snoc .nil ⟨failed, published, exposed_first fun _ => Or.inl rfl⟩)
    ⟨exec_known (by norm_num) (by norm_num), retried,
      exposed_single .fine (fun _ => Or.inl rfl) ⟨path, 0, 0, [], true, false⟩ (by norm_num)
        (by norm_num)⟩

/-- A failed write and its acknowledged retry: the read that follows delivers what
the backing file held before. -/
theorem retry_not_read_back :
    ¬ ∀ (SHA512 : Page → BlockId) (data : Set Page) (fd : ℕ) (sysdata : ByteDisk.Disk)
      (history : List Event) (s : Store), Set.InjOn SHA512 data →
      Runs (Step SHA512 (Exposed SHA512 data)) (Store.empty fd sysdata) history s →
      ∀ path size (offset : ℕ) env ret buf, size < 2 ^ 31 → (∀ k, (env.pread k).Whole) →
        xmp_read path size offset env s = some (ret, buf) → 0 ≤ ret →
        buf = slice (content history path) offset size := by
  intro claim
  have short : (CString.lit "/a").bytes.length < 2 ^ 64 := by decide
  have run := runs_retried (fun _ => digestOfA) 3 (fun _ => 0) (CString.lit "/a") pageOfA short
  have runs := xmp_read_single 3 (fun _ => 0) (CString.lit "/a") 0 digestOfA 2
  have expected := claim _ _ _ _ _ _ (Set.injOn_singleton _ pageOfA) run _ 4096 0 .fine 4096 _
    (by norm_num) ReadEnv.fine_whole runs (by norm_num)
  have acknowledged : content [(.write (CString.lit "/a") pageOfA.toList 0 .refused, .code (-ENOMEM)),
      (.write (CString.lit "/a") pageOfA.toList 0 .fine, .code 4096)] (CString.lit "/a") =
        pageOfA.toList := by
    simp [content, written, ENOMEM]
  have whole := slice_all pageOfA.toList
  rw [length_page] at whole
  rw [acknowledged, whole] at expected
  -- zeros were delivered where letters were acknowledged
  have byte := congrArg (fun l => l[0]?) expected
  have zero : (ByteDisk.read (fun _ => 0) 0 4096)[0]? = some 0 := by
    rw [ByteDisk.read, List.getElem?_map, List.getElem?_range (by norm_num)]
    rfl
  simp only [zero, pageOfA_first] at byte
  cases byte

end Acknowledged

end ProjetoTSO.Codededup
