/-
Oxcaml.Backend.DwarfAccounting — the size of every part of DWARF against its emission.

A `DwarfItem` is something that has a size function and an emission: a value, an operator,
a branch, an entry, a list, a table or a section, and what stands behind an initial length.
The two agree exactly when the terminators of strings that are counted, and not emitted,
are as many as the bytes that are emitted, and not counted.
-/
import Oxcaml.Backend.DwarfSizes

set_option linter.all false

namespace Oxcaml.Backend.DwarfSizes

open DwarfInt (add sum zero)
open DwarfOperator (branchSize sizeOfOperators)

open AsmDirectives Lib

variable {env : Env}

/-! ## §1 Tables behind their initial length -/

variable {n : DwarfInt} {x : Except Exn DwarfInt}

theorem num_of_sum {y : Except Exn DwarfInt} (h : sum env x y = .ok n) :
    ∃ i, n = DwarfInt.num env i := by
  obtain ⟨a, b, -, -, rfl⟩ := sum_eq_ok h
  exact ⟨_, rfl⟩

theorem agrees_addressTable (t : AddressTable) :
    Agrees 0 (extraOfInitialLength env) ((addressTable env).size t)
      ((addressTable env).emit t) := by
  have hunit := agrees_withInitialLength (fun n hn => ⟨_, ofInt64Exn_eq_ok hn⟩)
    (@agrees_addressTableUnit env t)
  rw [Nat.zero_add] at hunit
  exact hunit

variable {π ε : Type}

theorem agrees_listTable {kind : ListKind π} {missingOfPayload : π → ℕ}
    (hpayload : ∀ payload, Agrees (missingOfPayload payload) 0
      (kind.payload.size payload) (kind.payload.emit payload)) (t : ListTable π) :
    Agrees (missingOfTable missingOfPayload t) (extraOfTable t + extraOfInitialLength env)
      ((listTable env kind).size t) ((listTable env kind).emit t) := by
  refine agrees_withInitialLength (fun n hn => ?_) (agrees_listTableUnit hpayload t)
  obtain ⟨listsSize, -, hn⟩ := bind_eq_ok.1 hn
  exact num_of_sum hn

/-! ### Payloads -/

def missingOfCounted (t : CountedLocationDescription env) : ℕ := missingOfSingle t.locDesc

theorem agrees_counted (t : CountedLocationDescription env) :
    Agrees (missingOfCounted t) 0 ((countedLocationDescription env).size t)
      ((countedLocationDescription env).emit t) := by
  intro k k' hsize htakes
  obtain ⟨length, hlength, hsize⟩ := sized_bind hsize
  obtain ⟨length', hlength', htakes⟩ := takes_bind htakes
  obtain rfl : length = length' := Except.ok.inj (hlength.symm.trans hlength')
  obtain ⟨a, b, ha, hb, rfl⟩ := sized_sum hsize
  simp only [takes_seq_cons, takes_seq_nil] at htakes
  obtain ⟨c, _, hc, ⟨d, _, hd, rfl, rfl⟩, rfl⟩ := htakes
  have hlen := agrees_code length a c ha hc
  have hdesc := agrees_single t.locDesc _ d ⟨_, t.size_eq, rfl⟩ hd
  rw [sized_pure.1 hb]
  unfold missingOfCounted
  omega

theorem agrees_locationPayload (payload : CountedLocationDescription env) :
    Agrees (missingOfCounted payload) 0 ((locationListKind env).payload.size payload)
      ((locationListKind env).payload.emit payload) := agrees_counted payload

variable (env) in
theorem agrees_noPayload (payload : Unit) : Agrees 0 0 ((rangeListKind env).payload.size payload)
      ((rangeListKind env).payload.emit payload) := by
  intro k k' hsize htakes
  rw [sized_pure.1 hsize, takes_nothing.1 htakes, zero, num_toInt64]

/-! ## §2 The compilation unit -/

def missingOfDies (t : DebugInfoSection) : ℕ := (t.dies.map missingOfDie).sum

theorem agrees_dies (dies : List DebuggingInformationEntry) : Agrees (dies.map missingOfDie).sum 0
      (DwarfInt.foldAdd env (debuggingInformationEntry env).size (zero env) dies)
      (emitIter (debuggingInformationEntry env).emit dies) := by
  intro k k' hsize htakes
  have hdies := agrees_foldAdd_zero missingOfDie (fun _ => 0) agrees_die dies k k' hsize htakes
  simpa using hdies

theorem agrees_debugInfoUnit (t : DebugInfoSection) :
    Agrees (missingOfDies t) 0 (sizeWithoutFirstWord env t) (emitDebugInfo env t) := by
  intro k k' hsize htakes
  obtain ⟨totalDieSize, hdies, hsize⟩ := sized_bind hsize
  simp only [emitDebugInfo, takes_seq_cons, takes_seq_nil] at htakes
  obtain ⟨b₁, _, hb₁, ⟨b₂, _, hb₂, ⟨b₃, _, hb₃, rfl, rfl⟩, rfl⟩, rfl⟩ := htakes
  have hentries := agrees_dies t.dies _ b₃ ⟨_, hdies, rfl⟩ hb₃
  unfold missingOfDies
  cases hversion : env.gdwarfVersion with
  | four =>
    simp only [hversion, takes_seq_cons, takes_seq_nil] at hsize hb₁ hb₂
    obtain ⟨b₄, _, hb₄, ⟨b₅, _, hb₅, rfl, rfl⟩, rfl⟩ := hb₂
    obtain ⟨c₃, a₄, hc₃, h₄, rfl⟩ := sized_sum hsize
    obtain ⟨c₂, a₃, hc₂, h₃, rfl⟩ := sized_sum hc₃
    obtain ⟨a₁, a₂, h₁, h₂, rfl⟩ := sized_sum hc₂
    have hcode := agrees_value (.int16 (DwarfVersion.code .four)) a₁ b₁ h₁ hb₁
    have habbrev := agrees_value t.debugAbbrevOffset a₂ b₄ h₂ hb₄
    have hwidth := agrees_value addressWidthInBytesOnTarget a₃ b₅ h₃ hb₅
    rw [sized_pure.1 h₄]
    simp only [DebugInfoSection.debugAbbrevOffset, addressWidthInBytesOnTarget,
      missingOfValue] at hcode habbrev hwidth
    omega
  | five =>
    simp only [hversion, takes_seq_cons, takes_seq_nil] at hsize hb₁ hb₂
    obtain ⟨b₄, _, hb₄, ⟨b₅, _, hb₅, ⟨b₆, _, hb₆, rfl, rfl⟩, rfl⟩, rfl⟩ := hb₂
    obtain ⟨c₄, a₅, hc₄, h₅, rfl⟩ := sized_sum hsize
    obtain ⟨c₃, a₄, hc₃, h₄, rfl⟩ := sized_sum hc₄
    obtain ⟨c₂, a₃, hc₂, h₃, rfl⟩ := sized_sum hc₃
    obtain ⟨a₁, a₂, h₁, h₂, rfl⟩ := sized_sum hc₂
    have hcode := agrees_value (.int16 (DwarfVersion.code .five)) a₁ b₁ h₁ hb₁
    have hunit := agrees_value unitType a₂ b₄ h₂ hb₄
    have hwidth := agrees_value addressWidthInBytesOnTarget a₃ b₅ h₃ hb₅
    have habbrev := agrees_value t.debugAbbrevOffset a₄ b₆ h₄ hb₆
    rw [sized_pure.1 h₅]
    simp only [DebugInfoSection.debugAbbrevOffset, addressWidthInBytesOnTarget, unitType,
      missingOfValue] at hcode hunit habbrev hwidth
    omega

theorem num_of_sizeWithoutFirstWord {t : DebugInfoSection}
    (h : sizeWithoutFirstWord env t = .ok n) : ∃ i, n = DwarfInt.num env i := by
  obtain ⟨totalDieSize, -, h⟩ := bind_eq_ok.1 h
  cases hversion : env.gdwarfVersion with
  | four | five => simp only [hversion] at h; exact num_of_sum h

theorem agrees_debugInfo (t : DebugInfoSection) :
    Agrees (missingOfDies t) (extraOfInitialLength env) ((debugInfoSection env).size t)
      ((debugInfoSection env).emit t) := by
  intro k k' hsize htakes
  have hunit := agrees_withInitialLength (fun n => num_of_sizeWithoutFirstWord)
    (@agrees_debugInfoUnit env t)
  obtain ⟨length, hlength, htakes⟩ := takes_bind htakes
  obtain ⟨a, b, ha, hb, rfl⟩ := takes_seq_cons.1 htakes
  have hrest := hunit k b hsize (by
    rw [hlength]
    exact hb)
  rw [takes_defineLabel ha]
  omega

/-! ## §3 Branches -/

theorem sum_comm : sum env x (pure n) = sum env (pure n) x := by
  cases x with
  | error e => rfl
  | ok t => change add env t n = add env n t; cases t <;> cases n <;> simp [add, add_comm]

theorem branchSize_eq {acc : DwarfInt} {ops : List DwarfOperator} :
    branchSize env acc ops = sizeOfOperators env acc ops := by
  induction ops generalizing acc with
  | nil => rw [branchSize, sizeOfOperators]
  | cons op ops ih => rw [branchSize, sizeOfOperators, sum_comm]; simp only [ih]

theorem agrees_branch (ops : List DwarfOperator) :
    Agrees (missingOfOperators ops) 0 (branchSize env (zero env) ops)
      (emitIter (DwarfOperator.emit env) ops) := by
  rw [branchSize_eq]
  exact agrees_expression ops

/-! ## §4 The lists of DWARF 4 -/

theorem agrees_withOffset (upper : AsmLabel) (lower : AsmSymbol) (offset : Option ℤ) :
    Agrees 0 0 ((addressWithOffset upper lower offset).size env)
      ((addressWithOffset upper lower offset).emit env) := by
  cases offset with
  | none => exact agrees_value (.codeAddressFromLabelSymbolDiff upper lower 0)
  | some offset => exact agrees_value (.codeAddressFromLabelSymbolDiff upper lower offset)

theorem agrees_dwarf4Location (t : Dwarf4Location) :
    Agrees (missingOfSingle t.expr) 0 ((dwarf4Location env).size t)
      ((dwarf4Location env).emit t) := by
  intro k k' hsize htakes
  obtain ⟨exprSize, -, hsize⟩ := sized_bind hsize
  obtain ⟨c₃, a₄, hc₃, h₄, rfl⟩ := sized_sum hsize
  obtain ⟨c₂, a₃, hc₂, h₃, rfl⟩ := sized_sum hc₃
  obtain ⟨a₁, a₂, h₁, h₂, rfl⟩ := sized_sum hc₂
  simp only [dwarf4Location, takes_seq_cons, takes_seq_nil] at htakes
  obtain ⟨b₁, _, hb₁, ⟨b₂, _, hb₂, ⟨b₃, _, hb₃, ⟨b₄, _, hb₄, rfl, rfl⟩, rfl⟩, rfl⟩, rfl⟩ := htakes
  obtain ⟨exprSize', -, hb₃⟩ := takes_bind hb₃
  have hbeginning := agrees_withOffset _ _ t.beginningAddressOffset a₁ b₁ h₁ hb₁
  have hending := agrees_withOffset _ _ t.endingAddressOffset a₂ b₂ h₂ hb₂
  have hcount := agrees_const (num_toInt64 2) a₃ b₃ h₃ hb₃
  have hexpr := agrees_single t.expr a₄ b₄ h₄ hb₄
  omega

variable (env) in
theorem agrees_dwarf4Range (t : Dwarf4Range) :
    Agrees 0 0 ((dwarf4Range env).size t) ((dwarf4Range env).emit t) := by
  intro k k' hsize htakes
  obtain ⟨a₁, a₂, h₁, h₂, rfl⟩ := sized_sum hsize
  simp only [dwarf4Range, takes_seq_cons, takes_seq_nil] at htakes
  obtain ⟨b₁, _, hb₁, ⟨b₂, _, hb₂, rfl, rfl⟩, rfl⟩ := htakes
  have hbeginning := agrees_withOffset t.beginningAddressLabel t.startOfCodeSymbol none a₁ b₁ h₁ hb₁
  have hending := agrees_withOffset _ _ t.endingAddressOffset a₂ b₂ h₂ hb₂
  omega

section Dwarf4

variable {ε : Type} {listEntry : DwarfEmittable ε} {missingOf : ε → ℕ}

def missingOfDwarf4Entry (missingOf : ε → ℕ) : Dwarf4Entry ε → ℕ
  | .listEntry entry => missingOf entry
  | .baseAddressSelectionEntry _ => 0

theorem agrees_baseAddress (t : AsmSymbol) : Agrees 0 0 ((baseAddressSelectionEntry env).size t)
      ((baseAddressSelectionEntry env).emit t) := by
  intro k k' hsize htakes
  have hvalues := agrees_foldAdd_zero missingOfValue (fun _ => 0) agrees_value
    (baseAddressValues t) k k' hsize htakes
  simpa [baseAddressValues, missingOfValue] using hvalues

theorem agrees_dwarf4Entry (h : ∀ entry, Agrees (missingOf entry) 0 (listEntry.size entry)
      (listEntry.emit entry)) (t : Dwarf4Entry ε) :
    Agrees (missingOfDwarf4Entry missingOf t) 0 ((dwarf4Entry env listEntry).size t)
      ((dwarf4Entry env listEntry).emit t) := by
  cases t with
  | listEntry entry => exact h entry
  | baseAddressSelectionEntry entry => exact agrees_baseAddress entry

def missingOfDwarf4List (missingOf : ε → ℕ) (t : Dwarf4List ε) : ℕ :=
  (t.entries.map (missingOfDwarf4Entry missingOf)).sum

section

variable (h : ∀ entry, Agrees (missingOf entry) 0 (listEntry.size entry) (listEntry.emit entry))
include h

theorem agrees_dwarf4List (t : Dwarf4List ε) :
    Agrees (missingOfDwarf4List missingOf t) 0 ((dwarf4List env listEntry).size t)
      ((dwarf4List env listEntry).emit t) := by
  intro k k' hsize htakes
  obtain ⟨c₂, a₃, hc₂, h₃, rfl⟩ := sized_sum hsize
  obtain ⟨a₁, a₂, h₁, h₂, rfl⟩ := sized_sum hc₂
  simp only [dwarf4List, takes_seq_cons, takes_seq_nil] at htakes
  obtain ⟨b₁, _, hb₁, ⟨b₂, _, hb₂, ⟨b₃, _, hb₃, ⟨b₄, _, hb₄, rfl, rfl⟩, rfl⟩, rfl⟩, rfl⟩ := htakes
  have hentries := agrees_foldAdd_zero (missingOfDwarf4Entry missingOf) (fun _ => 0)
    (agrees_dwarf4Entry h) t.entries a₁ b₂ h₁ hb₂
  have hfirst := agrees_value endMarker a₂ b₃ h₂ hb₃
  have hsecond := agrees_value endMarker a₃ b₄ h₃ hb₄
  rw [takes_defineLabel hb₁]
  simp only [endMarker, missingOfValue, List.map_const', List.sum_replicate, smul_zero]
    at hentries hfirst hsecond
  unfold missingOfDwarf4List
  omega

/-- The lists of a table, in the order of emission. -/
theorem agrees_dwarf4Lists (t : List (Dwarf4List ε)) :
    Agrees (t.map (missingOfDwarf4List missingOf)).sum 0
      (DwarfInt.foldAdd env (dwarf4List env listEntry).size (zero env) t)
      (emitIter (dwarf4List env listEntry).emit t) := by
  intro k k' hsize htakes
  have hlists := agrees_foldAdd_zero (missingOfDwarf4List missingOf) (fun _ => 0)
    (agrees_dwarf4List h) t k k' hsize htakes
  simpa using hlists

end

end Dwarf4

theorem agrees_debugLocTable (t : List (Dwarf4List Dwarf4Location)) :
    Agrees (t.map (missingOfDwarf4List fun entry => missingOfSingle entry.expr)).sum 0
      ((debugLocTable env).size t) ((debugLocTable env).emit t) := by
  intro k k' hsize htakes
  exact agrees_dwarf4Lists agrees_dwarf4Location t k k' hsize (takes_iter_reverse.1 htakes)

/-! ## §5 Every part of DWARF -/

variable (env) in
/-- What has a size and is emitted. The parts that end in `Unit` stand behind an initial
length, which is their size. -/
inductive DwarfItem
  | value (v : DwarfValue)
  | operator (op : DwarfOperator)
  | expression (ops : SimpleLocationDescription)
  | branch (ops : List DwarfOperator)
  | compositeLocationDescription (locDesc : CompositeLocationDescription)
  | singleLocationDescription (locDesc : SingleLocationDescription)
  | countedLocationDescription (locDesc : CountedLocationDescription env)
  | attributeValue (value : AttributeValue)
  | debuggingInformationEntry (die : DebuggingInformationEntry)
  | abbreviationsTable (table : AbbreviationsTable)
  | addressTable (table : AddressTable)
  | addressTableUnit (table : AddressTable)
  | locationListEntry (entry : LocatedEntry (CountedLocationDescription env))
  | locationList (list : List (LocatedEntry (CountedLocationDescription env)))
  | locationListTable (table : ListTable (CountedLocationDescription env))
  | locationListTableUnit (table : ListTable (CountedLocationDescription env))
  | rangeListEntry (entry : LocatedEntry Unit)
  | rangeList (list : List (LocatedEntry Unit))
  | rangeListTable (table : ListTable Unit)
  | rangeListTableUnit (table : ListTable Unit)
  | dwarf4LocationListEntry (entry : Dwarf4Entry Dwarf4Location)
  | dwarf4LocationList (list : Dwarf4List Dwarf4Location)
  | dwarf4LocationListTable (table : List (Dwarf4List Dwarf4Location))
  | dwarf4RangeListEntry (entry : Dwarf4Entry Dwarf4Range)
  | dwarf4RangeList (list : Dwarf4List Dwarf4Range)
  | dwarf4RangeListTable (table : List (Dwarf4List Dwarf4Range))
  | debugInfoSection (info : DebugInfoSection)
  | debugInfoSectionUnit (info : DebugInfoSection)

namespace DwarfItem

def size : DwarfItem env → Except Exn DwarfInt
  | value v => v.size env
  | operator op => op.size env
  | expression ops => (Backend.simpleLocationDescription env).size ops
  | branch ops => branchSize env (zero env) ops
  | compositeLocationDescription locDesc =>
    (Backend.compositeLocationDescription env).size locDesc
  | singleLocationDescription locDesc => (Backend.singleLocationDescription env).size locDesc
  | countedLocationDescription locDesc => (Backend.countedLocationDescription env).size locDesc
  | attributeValue v => (Backend.attributeValue env).size v
  | debuggingInformationEntry die => (Backend.debuggingInformationEntry env).size die
  | abbreviationsTable table => (Backend.abbreviationsTable env).size table
  | addressTable table => (Backend.addressTable env).size table
  | addressTableUnit table => table.initialLength env
  | locationListEntry entry => (listEntry env (locationListKind env)).size entry
  | locationList list => (locationOrRangeList env (locationListKind env)).size list
  | locationListTable table => (listTable env (locationListKind env)).size table
  | locationListTableUnit table => table.initialLength env (locationListKind env)
  | rangeListEntry entry => (listEntry env (rangeListKind env)).size entry
  | rangeList list => (locationOrRangeList env (rangeListKind env)).size list
  | rangeListTable table => (listTable env (rangeListKind env)).size table
  | rangeListTableUnit table => table.initialLength env (rangeListKind env)
  | dwarf4LocationListEntry entry => (dwarf4Entry env (dwarf4Location env)).size entry
  | dwarf4LocationList list => (dwarf4List env (dwarf4Location env)).size list
  | dwarf4LocationListTable table => (debugLocTable env).size table
  | dwarf4RangeListEntry entry => (dwarf4Entry env (dwarf4Range env)).size entry
  | dwarf4RangeList list => (dwarf4List env (dwarf4Range env)).size list
  | dwarf4RangeListTable table => (debugRangesTable env).size table
  | debugInfoSection info => (Backend.debugInfoSection env).size info
  | debugInfoSectionUnit info => sizeWithoutFirstWord env info

def emit : DwarfItem env → Emission
  | value v => v.emit env
  | operator op => op.emit env
  | expression ops => (Backend.simpleLocationDescription env).emit ops
  | branch ops => emitIter (DwarfOperator.emit env) ops
  | compositeLocationDescription locDesc =>
    (Backend.compositeLocationDescription env).emit locDesc
  | singleLocationDescription locDesc => (Backend.singleLocationDescription env).emit locDesc
  | countedLocationDescription locDesc => (Backend.countedLocationDescription env).emit locDesc
  | attributeValue v => (Backend.attributeValue env).emit v
  | debuggingInformationEntry die => (Backend.debuggingInformationEntry env).emit die
  | abbreviationsTable table => (Backend.abbreviationsTable env).emit table
  | addressTable table => (Backend.addressTable env).emit table
  | addressTableUnit table => emitAddressTable env table
  | locationListEntry entry => (listEntry env (locationListKind env)).emit entry
  | locationList list => (locationOrRangeList env (locationListKind env)).emit list
  | locationListTable table => (listTable env (locationListKind env)).emit table
  | locationListTableUnit table => emitListTable env (locationListKind env) table
  | rangeListEntry entry => (listEntry env (rangeListKind env)).emit entry
  | rangeList list => (locationOrRangeList env (rangeListKind env)).emit list
  | rangeListTable table => (listTable env (rangeListKind env)).emit table
  | rangeListTableUnit table => emitListTable env (rangeListKind env) table
  | dwarf4LocationListEntry entry => (dwarf4Entry env (dwarf4Location env)).emit entry
  | dwarf4LocationList list => (dwarf4List env (dwarf4Location env)).emit list
  | dwarf4LocationListTable table => (debugLocTable env).emit table
  | dwarf4RangeListEntry entry => (dwarf4Entry env (dwarf4Range env)).emit entry
  | dwarf4RangeList list => (dwarf4List env (dwarf4Range env)).emit list
  | dwarf4RangeListTable table => (debugRangesTable env).emit table
  | debugInfoSection info => (Backend.debugInfoSection env).emit info
  | debugInfoSectionUnit info => emitDebugInfo env info

/-- The strings of the item: each is counted with a terminator that is not emitted. -/
def missing : DwarfItem env → ℕ
  | value v => missingOfValue v
  | operator op => missingOfOperator op
  | expression ops | branch ops => missingOfOperators ops
  | compositeLocationDescription locDesc => missingOfComposite locDesc
  | singleLocationDescription locDesc => missingOfSingle locDesc
  | countedLocationDescription locDesc => missingOfCounted locDesc
  | attributeValue v => missingOfAttribute v
  | debuggingInformationEntry die => missingOfDie die
  | abbreviationsTable _ | addressTable _ | addressTableUnit _ => 0
  | locationListEntry entry => missingOfEntry missingOfCounted entry.entry
  | locationList list => missingOfList missingOfCounted list
  | locationListTable table | locationListTableUnit table => missingOfTable missingOfCounted table
  | rangeListEntry _ | rangeList _ | rangeListTable _ | rangeListTableUnit _ => 0
  | dwarf4LocationListEntry entry =>
    missingOfDwarf4Entry (fun entry => missingOfSingle entry.expr) entry
  | dwarf4LocationList list => missingOfDwarf4List (fun entry => missingOfSingle entry.expr) list
  | dwarf4LocationListTable table =>
    (table.map (missingOfDwarf4List fun entry => missingOfSingle entry.expr)).sum
  | dwarf4RangeListEntry _ | dwarf4RangeList _ | dwarf4RangeListTable _ => 0
  | debugInfoSection info | debugInfoSectionUnit info => missingOfDies info

/-- The bounds of the item whose signed encoding is longer, and four bytes for an initial
length in the 64-bit format. -/
def extra : DwarfItem env → ℕ
  | locationListEntry entry => extraOfEntry entry.entry
  | locationList list => extraOfList list
  | locationListTable table => extraOfTable table + extraOfInitialLength env
  | locationListTableUnit table => extraOfTable table
  | rangeListEntry entry => extraOfEntry entry.entry
  | rangeList list => extraOfList list
  | rangeListTable table => extraOfTable table + extraOfInitialLength env
  | rangeListTableUnit table => extraOfTable table
  | addressTable _ | debugInfoSection _ => extraOfInitialLength env
  | _ => 0

end DwarfItem

/-! ### Entries without a payload -/

theorem agrees_of_missing {missing missing' extra : ℕ}
    {emission : Emission} (heq : missing = missing') (h : Agrees missing extra x emission) :
    Agrees missing' extra x emission := heq ▸ h

theorem missingOfEntry_zero (entry : ListEntry π) : missingOfEntry (fun _ => 0) entry = 0 := by
  cases entry <;> rfl

theorem missingOfList_zero (list : List (LocatedEntry π)) :
    missingOfList (fun _ => 0) list = 0 := by
  simp [missingOfList, missingOfEntry_zero]

theorem missingOfTable_zero (table : ListTable π) : missingOfTable (fun _ => 0) table = 0 := by
  simp [missingOfTable, missingOfList_zero]

theorem missingOfDwarf4Entry_zero (entry : Dwarf4Entry ε) :
    missingOfDwarf4Entry (fun _ => 0) entry = 0 := by
  cases entry <;> rfl

theorem missingOfDwarf4List_zero (list : Dwarf4List ε) :
    missingOfDwarf4List (fun _ => 0) list = 0 := by
  have hzero : missingOfDwarf4Entry (fun _ : ε => 0) = fun _ => 0 :=
    funext missingOfDwarf4Entry_zero
  simp [missingOfDwarf4List, hzero]

theorem missingOfDwarf4Lists_zero (table : List (Dwarf4List ε)) :
    (table.map (missingOfDwarf4List fun _ => 0)).sum = 0 := by
  have hzero : missingOfDwarf4List (fun _ : ε => 0) = fun _ => 0 := funext missingOfDwarf4List_zero
  simp [hzero]

theorem agrees_item (item : DwarfItem env) :
    Agrees item.missing item.extra item.size item.emit := by
  cases item with
  | value v => exact agrees_value v
  | operator op => exact agrees_operator op
  | expression ops => exact agrees_expression ops
  | branch ops => exact agrees_branch ops
  | compositeLocationDescription locDesc => exact agrees_composite locDesc
  | singleLocationDescription locDesc => exact agrees_single locDesc
  | countedLocationDescription locDesc => exact agrees_counted locDesc
  | attributeValue value => exact agrees_attribute value
  | debuggingInformationEntry die => exact agrees_die die
  | abbreviationsTable table => exact agrees_abbreviations table
  | addressTable table => exact agrees_addressTable table
  | addressTableUnit table => exact agrees_addressTableUnit table
  | locationListEntry entry => exact agrees_entry agrees_locationPayload entry
  | locationList list => exact agrees_lists agrees_locationPayload list
  | locationListTable table => exact agrees_listTable agrees_locationPayload table
  | locationListTableUnit table => exact agrees_listTableUnit agrees_locationPayload table
  | rangeListEntry entry =>
    exact agrees_of_missing (missingOfEntry_zero _) (agrees_entry (agrees_noPayload env) entry)
  | rangeList list =>
    exact agrees_of_missing (missingOfList_zero _) (agrees_lists (agrees_noPayload env) list)
  | rangeListTable table =>
    exact agrees_of_missing (missingOfTable_zero _) (agrees_listTable (agrees_noPayload env) table)
  | rangeListTableUnit table =>
    exact agrees_of_missing (missingOfTable_zero _)
      (agrees_listTableUnit (agrees_noPayload env) table)
  | dwarf4LocationListEntry entry => exact agrees_dwarf4Entry agrees_dwarf4Location entry
  | dwarf4LocationList list => exact agrees_dwarf4List agrees_dwarf4Location list
  | dwarf4LocationListTable table => exact agrees_debugLocTable table
  | dwarf4RangeListEntry entry =>
    exact agrees_of_missing (missingOfDwarf4Entry_zero _)
      (agrees_dwarf4Entry (agrees_dwarf4Range env) entry)
  | dwarf4RangeList list =>
    exact agrees_of_missing (missingOfDwarf4List_zero _)
      (agrees_dwarf4List (agrees_dwarf4Range env) list)
  | dwarf4RangeListTable table =>
    exact agrees_of_missing (missingOfDwarf4Lists_zero _)
      (agrees_dwarf4Lists (agrees_dwarf4Range env) table)
  | debugInfoSection info => exact agrees_debugInfo info
  | debugInfoSectionUnit info => exact agrees_debugInfoUnit info

/-- An environment for the format. -/
def elfEnv (format : DwarfFormat) : Env where
  gdwarfFormat := format
  gdwarfVersion := .five
  gdwarfOffsets := false
  isMacos := false
  currentSection := .dwarf .debugInfo

def emptyInfo : DebugInfoSection where
  dies := []
  debugAbbrevLabel := AsmLabel.forDwarfSection .debugAbbrev
  compilationUnitHeaderLabel := AsmLabel.forDwarfSection .debugInfo

theorem sizeOfUleb128_small {i : ℤ} (hnonneg : 0 ≤ i) (hsmall : i < 128) :
    sizeOfUleb128 env i = pure (DwarfInt.one env) := by
  unfold sizeOfUleb128 DwarfOperator.nonnegativeToUint64Exn
  rw [if_neg (by omega)]
  change DwarfValue.uleb128Size env i.toNat = _
  rw [DwarfValue.uleb128Size, if_pos (by omega)]

def pairEntry : LocatedEntry Unit where
  entry := .offsetPair 0 64 ()
  startOfCodeSymbol := "caml_startup__code_begin"

end Oxcaml.Backend.DwarfSizes
