import TyLsm.OpenBytes

/-! Reads of a database that was opened from bytes. -/

namespace TyLsm

namespace ByteDB.Shows

variable {F : FileFormat} {b : ByteDB} {db : DB}

/-- A table whose file is there can be opened. -/
theorem openTable (h : b.Shows F db) {r : ReaderRef} {ref : TableRef}
    (hr : RefShows F b.directory r ref) : ∃ table, db.disk.openTable ref.1.number = .ok table := by
  have hfile := hr.present
  rw [h.tables, hr.file] at hfile
  obtain ⟨table, htable, -⟩ := Option.map_eq_some_iff.mp hfile
  exact ⟨table, by rw [Disk.openTable, htable]⟩

theorem searchTable (h : b.Shows F db) {r : ReaderRef} {ref : TableRef}
    (hr : RefShows F b.directory r ref) (key : Bytes) (readSeq : Nat) :
    ByteDB.searchTable F b.directory key readSeq r = TyLsm.searchTable db.disk key readSeq ref := by
  have hfilter : r.2.mightContain key = ref.2.mightContain key := by
    rw [TableFile.SSTableReader.mightContain, hr.reader.filter]
    rfl
  obtain ⟨table, htable⟩ := h.openTable hr
  rw [ByteDB.searchTable, TyLsm.searchTable, hfilter, openReadable_eq hr.present, htable]
  cases ref.2.mightContain key with
  | false => rfl
  | true => exact hr.reader.get_eq key readSeq

theorem searchL0 (h : b.Shows F db) {rs : List ReaderRef} {refs : List TableRef}
    (hrs : List.Forall₂ (RefShows F b.directory) rs refs) (key : Bytes) (readSeq : Nat) :
    ByteDB.searchL0 F b.directory key readSeq rs = TyLsm.searchL0 db.disk key readSeq refs := by
  induction hrs with
  | nil => rfl
  | cons hr _ ih =>
    rw [ByteDB.searchL0, hr.file, h.searchTable hr, ih]
    rfl

/-- The file of a level that covers a key is the same on both sides. -/
theorem find? {d : Directory} {rs : List ReaderRef} {refs : List TableRef}
    (hrs : List.Forall₂ (RefShows F d) rs refs) (key : Bytes) :
    (rs.find? (fun r => fileOverlapsUserKey r.1 key) = none ∧
        refs.find? (fun ref => fileOverlapsUserKey ref.1 key) = none) ∨
      ∃ r ref, rs.find? (fun r => fileOverlapsUserKey r.1 key) = some r ∧
        refs.find? (fun ref => fileOverlapsUserKey ref.1 key) = some ref ∧ RefShows F d r ref := by
  induction hrs with
  | nil => exact .inl ⟨rfl, rfl⟩
  | @cons r ref _ _ hr _ ih =>
    cases hkey : fileOverlapsUserKey ref.1 key with
    | true =>
      refine .inr ⟨r, ref, ?_, ?_, hr⟩
      · exact List.find?_cons_of_pos (by rw [hr.file, hkey])
      · exact List.find?_cons_of_pos (by rw [hkey])
    | false =>
      rw [List.find?_cons_of_neg (by rw [hr.file, hkey]; decide),
        List.find?_cons_of_neg (by rw [hkey]; decide)]
      exact ih

theorem searchLevels (h : b.Shows F db) {levels : List (List ReaderRef)}
    {tables : List (List TableRef)}
    (hlevels : List.Forall₂ (List.Forall₂ (RefShows F b.directory)) levels tables) (key : Bytes)
    (readSeq : Nat) :
    ByteDB.searchLevels F b.directory key readSeq levels =
      TyLsm.searchLevels db.disk key readSeq tables := by
  induction hlevels with
  | nil => rfl
  | cons hlevel _ ih =>
    rw [ByteDB.searchLevels, TyLsm.searchLevels]
    rcases find? hlevel key with ⟨hnone, hnone'⟩ | ⟨r, ref, hsome, hsome', hr⟩
    · rw [hnone, hnone']
      exact ih
    · rw [hsome, hsome']
      dsimp only
      rw [h.searchTable hr]
      apply bind_congr
      intro answer
      cases answer with
      | none => exact ih
      | some record => rfl

theorem getOpt_eq (h : b.Shows F db) (key : Bytes) (snapshot : Option Nat) :
    b.getOpt F key snapshot = db.getOpt key snapshot := by
  have hmemory : b.memory.memtables = db.state.memtables := by
    rw [h.memory]
    rfl
  have hclosed : b.memory.closed = db.state.closed := by rw [h.memory]
  have hsequence : b.memory.lastSequence = db.state.lastSequence := by rw [h.memory]
  have hlevels : ∀ readSeq, ByteDB.searchLevels F b.directory key readSeq (b.levelTables.drop 1) =
      TyLsm.searchLevels db.disk key readSeq (db.state.levelTables.drop 1) := fun readSeq =>
    h.searchLevels (List.forall₂_drop 1 h.levelTables) key readSeq
  rw [ByteDB.getOpt, hmemory, hclosed, hsequence]
  simp only [h.searchL0 h.l0Tables, hlevels]
  rfl

end ByteDB.Shows

end TyLsm
