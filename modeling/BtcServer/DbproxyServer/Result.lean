import BtcServer.HttpmessageServer.Request
import Mathlib.Data.List.Nodup

/-!
# Query results

`CPGDBResult` of `dbproxy_server.cpp`, a cursor over the rows of a `PGresult` of libpq.  The cursor
starts on row 0, and `next` moves it on before it says whether there is a row.  A caller that asks
`next` before each row therefore never sees row 0.
-/

namespace BtcServer.DbproxyServer

open HttpmessageServer (Bytes str isSpace isDecimalDigit decimalValue)

/-- The table of a result.  libpq is here by its interface only; `ntuples` and `getvalue` say what it
documents of `PQntuples` and `PQgetvalue`.  Values have no NUL in them. -/
structure PGresult where
  fields : List Bytes
  rows : List (List Bytes)
  deriving DecidableEq, Repr

namespace PGresult

/-- `PQntuples` -/
def ntuples (p : PGresult) : Nat := p.rows.length

/-- `PQgetvalue`; the null pointer for a row or a field that the result does not have. -/
def getvalue (p : PGresult) (row : Int) (field : Nat) : Option Bytes :=
  if row < 0 then none else (p.rows[row.toNat]?).bind fun values => values[field]?

end PGresult

/-- `atoi`; a number that an `int` does not hold is undefined behaviour. -/
def atoi (s : Bytes) : Int :=
  match s.dropWhile isSpace with
  | [] => 0
  | c :: rest =>
      let digits := (if c = '-'.toUInt8 ∨ c = '+'.toUInt8 then rest else c :: rest).takeWhile
        isDecimalDigit
      if c = '-'.toUInt8 then -(decimalValue digits : Int) else decimalValue digits

/-- `std::map::insert`, which leaves an entry that is there as it is. -/
def insertKey (keys : List (Bytes × Nat)) (key : Bytes) (index : Nat) : List (Bytes × Nat) :=
  if (keys.lookup key).isSome then keys else keys ++ [(key, index)]

structure CPGDBResult where
  mPResult : PGresult
  mKeyMap : List (Bytes × Nat)
  iCurrentRow : Int
  iMaxRow : Int
  /-- The rows and fields that `PQgetvalue` was called with. -/
  requests : List (Int × Nat)
  deriving DecidableEq, Repr

/-- A call of `getInt` or `getStr`. -/
inductive Read
  | getInt (strKey : Bytes)
  | getStr (strKey : Bytes)
  deriving DecidableEq, Repr

def Read.strKey : Read → Bytes
  | getInt strKey => strKey
  | getStr strKey => strKey

namespace CPGDBResult

def create (p : PGresult) : CPGDBResult where
  mPResult := p
  mKeyMap := p.fields.zipIdx.foldl (fun keys field => insertKey keys field.1 field.2) []
  iCurrentRow := 0
  iMaxRow := p.ntuples
  requests := []

def next (r : CPGDBResult) : Bool × CPGDBResult :=
  let r := { r with iCurrentRow := r.iCurrentRow + 1 }
  if r.iCurrentRow ≥ r.iMaxRow then (false, r) else (true, r)

/-- What `getInt` and `getStr` do before they convert the value: find the key and ask for the field
in the current row. -/
def getField (r : CPGDBResult) (strKey : Bytes) : Except String (Option Bytes) × CPGDBResult :=
  match r.mKeyMap.lookup strKey with
  | none => (.error "Fail to find key", r)
  | some index =>
      (.ok (r.mPResult.getvalue r.iCurrentRow index),
        { r with requests := r.requests ++ [(r.iCurrentRow, index)] })

/-- `getInt`; `none` stands for `atoi` of the null pointer. -/
def getInt (r : CPGDBResult) (strKey : Bytes) : Except String (Option Int) × CPGDBResult :=
  ((r.getField strKey).1.map (Option.map atoi), (r.getField strKey).2)

/-- `getStr`; `none` stands for a string made from the null pointer. -/
def getStr (r : CPGDBResult) (strKey : Bytes) : Except String (Option Bytes) × CPGDBResult :=
  r.getField strKey

def read (r : CPGDBResult) : Read → CPGDBResult
  | .getInt strKey => (r.getInt strKey).2
  | .getStr strKey => (r.getStr strKey).2

def readAll (r : CPGDBResult) (reads : List Read) : CPGDBResult := reads.foldl read r

structure Visit where
  row : Int
  requests : List (Int × Nat)
  deriving DecidableEq, Repr

/-- A caller asks `next` until it gives false, and after each true result it makes the calls that
`caller` says, which are on existing column names. -/
inductive Scan (caller : CPGDBResult → List Read) :
    CPGDBResult → List Visit → CPGDBResult → Prop
  | stop {r r' : CPGDBResult} (hnext : r.next = (false, r')) : Scan caller r [] r'
  | row {r r' t : CPGDBResult} {visits : List Visit} (hnext : r.next = (true, r'))
      (hkeys : ∀ read ∈ caller r', read.strKey ∈ r'.mPResult.fields)
      (hrest : Scan caller (r'.readAll (caller r')) visits t) :
      Scan caller r
        (⟨r'.iCurrentRow, (r'.readAll (caller r')).requests.drop r'.requests.length⟩ :: visits) t

/-- Every row was visited once, in order, and `PQgetvalue` was asked for nothing else. -/
structure Covers (p : PGresult) (visits : List Visit) : Prop where
  rows : visits.map Visit.row = (List.range p.ntuples).map Int.ofNat
  requests : ∀ v ∈ visits, ∀ q ∈ v.requests, q.1 = v.row ∧ 0 ≤ q.1 ∧ q.1 < p.ntuples

variable {p : PGresult} {r r' t : CPGDBResult} {key strKey : Bytes} {index : Nat}
  {keys : List (Bytes × Nat)} {caller : CPGDBResult → List Read} {visits : List Visit}

/-! ## The keys -/

theorem lookup_insertKey (keys : List (Bytes × Nat)) (key strKey : Bytes) (index : Nat) :
    (insertKey keys key index).lookup strKey =
      (keys.lookup strKey).or (if strKey = key then some index else none) := by
  unfold insertKey
  by_cases hkey : strKey = key
  · subst hkey
    rw [if_pos rfl]
    cases hold : keys.lookup strKey with
    | some old =>
        rw [Option.isSome_some, if_pos rfl, hold]
        rfl
    | none =>
        rw [Option.isSome_none, if_neg Bool.false_ne_true, List.lookup_append, hold,
          List.lookup_cons_self]
  · rw [if_neg hkey, Option.or_none]
    split
    · rfl
    · rw [List.lookup_append, List.lookup_cons, beq_false_of_ne hkey]
      exact Option.or_none

/-- A name that two columns share stands for the first of them. -/
theorem lookup_foldl_insertKey (l : List Bytes) (k : Nat) (keys : List (Bytes × Nat))
    (strKey : Bytes) :
    ((l.zipIdx k).foldl (fun keys field => insertKey keys field.1 field.2) keys).lookup strKey =
      (keys.lookup strKey).or (if strKey ∈ l then some (k + l.idxOf strKey) else none) := by
  induction l generalizing k keys with
  | nil => simp
  | cons field l ih =>
      rw [List.zipIdx_cons, List.foldl_cons, ih, lookup_insertKey, Option.or_assoc]
      congr 1
      by_cases hfield : strKey = field
      · subst hfield
        simp
      · rw [if_neg hfield, Option.none_or, List.idxOf_cons_ne _ (Ne.symm hfield)]
        simp only [List.mem_cons, hfield, false_or]
        rw [Nat.add_assoc, Nat.add_comm 1]

theorem lookup_mKeyMap (h : strKey ∈ p.fields) :
    (create p).mKeyMap.lookup strKey = some (p.fields.idxOf strKey) := by
  unfold create
  dsimp only
  rw [lookup_foldl_insertKey, if_pos h, Nat.zero_add]
  rfl

/-! ## The steps of a caller -/

/-- The object is a result for `p`; only its current row and its requests have changed. -/
structure IsFor (p : PGresult) (r : CPGDBResult) : Prop where
  mPResult : r.mPResult = p
  mKeyMap : r.mKeyMap = (create p).mKeyMap
  iMaxRow : r.iMaxRow = p.ntuples

theorem isFor_create (p : PGresult) : (create p).IsFor p := ⟨rfl, rfl, rfl⟩

theorem next_eq (r : CPGDBResult) :
    r.next =
      (decide (r.iCurrentRow + 1 < r.iMaxRow), { r with iCurrentRow := r.iCurrentRow + 1 }) := by
  unfold next
  dsimp only
  by_cases h : r.iCurrentRow + 1 < r.iMaxRow
  · rw [if_neg (Int.not_le.mpr h), decide_eq_true h]
  · rw [if_pos (Int.not_lt.mp h), decide_eq_false h]

theorem IsFor.next (h : r.IsFor p) {b : Bool} (hnext : r.next = (b, r')) :
    r'.IsFor p ∧ r'.iCurrentRow = r.iCurrentRow + 1 ∧ r'.requests = r.requests ∧
      (b = true ↔ r.iCurrentRow + 1 < p.ntuples) := by
  rw [next_eq] at hnext
  obtain ⟨rfl, rfl⟩ := Prod.mk.inj hnext
  refine ⟨⟨h.mPResult, h.mKeyMap, h.iMaxRow⟩, rfl, rfl, ?_⟩
  rw [decide_eq_true_iff, h.iMaxRow]

theorem IsFor.read (h : r.IsFor p) {read : Read} (hkey : read.strKey ∈ p.fields) :
    r.read read =
      { r with requests := r.requests ++ [(r.iCurrentRow, p.fields.idxOf read.strKey)] } := by
  have hfield : ∀ strKey ∈ p.fields, (r.getField strKey).2 =
      { r with requests := r.requests ++ [(r.iCurrentRow, p.fields.idxOf strKey)] } := by
    intro strKey hmem
    unfold getField
    rw [h.mKeyMap, lookup_mKeyMap hmem]
  cases read <;> exact hfield _ hkey

theorem IsFor.getStr (h : r.IsFor p) (hkey : strKey ∈ p.fields) :
    (r.getStr strKey).1 = .ok (p.getvalue r.iCurrentRow (p.fields.idxOf strKey)) := by
  unfold CPGDBResult.getStr getField
  rw [h.mKeyMap, lookup_mKeyMap hkey, h.mPResult]

theorem IsFor.getInt (h : r.IsFor p) (hkey : strKey ∈ p.fields) :
    (r.getInt strKey).1 =
      .ok ((p.getvalue r.iCurrentRow (p.fields.idxOf strKey)).map atoi) := by
  exact congrArg (Except.map (Option.map atoi)) (h.getStr hkey)

theorem IsFor.readAll (h : r.IsFor p) {reads : List Read}
    (hkeys : ∀ read ∈ reads, read.strKey ∈ p.fields) :
    r.readAll reads = { r with
      requests := r.requests ++
        reads.map (fun read => (r.iCurrentRow, p.fields.idxOf read.strKey)) } := by
  induction reads generalizing r with
  | nil => exact (congrArg (fun q => { r with requests := q }) (List.append_nil _)).symm
  | cons read reads ih =>
      obtain ⟨hread, hreads⟩ := List.forall_mem_cons.mp hkeys
      rw [CPGDBResult.readAll, List.foldl_cons, h.read hread]
      have hfor : IsFor p { r with
          requests := r.requests ++ [(r.iCurrentRow, p.fields.idxOf read.strKey)] } :=
        ⟨h.mPResult, h.mKeyMap, h.iMaxRow⟩
      refine (ih hfor hreads).trans ?_
      rw [List.append_assoc]
      rfl

/-! ## Whole scans -/

theorem readAll_facts (h : r.IsFor p) {reads : List Read}
    (hkeys : ∀ read ∈ reads, read.strKey ∈ p.fields) :
    (r.readAll reads).IsFor p ∧ (r.readAll reads).iCurrentRow = r.iCurrentRow ∧
      (r.readAll reads).requests.drop r.requests.length =
        reads.map fun read => (r.iCurrentRow, p.fields.idxOf read.strKey) := by
  rw [h.readAll hkeys]
  exact ⟨⟨h.mPResult, h.mKeyMap, h.iMaxRow⟩, rfl, List.drop_left⟩

theorem Scan.rows (hscan : Scan caller r visits t) (h : r.IsFor p) {k : Nat}
    (hk : r.iCurrentRow = k) :
    visits.map Visit.row = (List.range' (k + 1) (p.ntuples - (k + 1))).map Int.ofNat ∧
      ∀ v ∈ visits, ∀ q ∈ v.requests, q.1 = v.row := by
  induction hscan generalizing k with
  | @stop r r' hnext =>
      obtain ⟨-, -, -, hrow⟩ := h.next hnext
      have hend : p.ntuples - (k + 1) = 0 := by
        have := hrow.not.mp Bool.false_ne_true
        omega
      rw [hend]
      exact ⟨rfl, fun v hv => by cases hv⟩
  | @row r r' t visits hnext hkeys hrest ih =>
      obtain ⟨hfor, hcurrent, -, hrow⟩ := h.next hnext
      rw [hfor.mPResult] at hkeys
      obtain ⟨hfor', hcurrent', hrequests⟩ := readAll_facts hfor hkeys
      have hk' : r'.iCurrentRow = (k + 1 : Nat) := by
        rw [hcurrent, hk]
        rfl
      obtain ⟨hrows, hvisits⟩ := ih hfor' (hcurrent'.trans hk')
      have hmore : p.ntuples - (k + 1) = (p.ntuples - (k + 1 + 1)) + 1 := by
        have := hrow.mp rfl
        omega
      constructor
      · rw [List.map_cons, hrows, hmore, List.range'_succ, List.map_cons, hk']
        rfl
      · intro v hv q hq
        rcases List.mem_cons.mp hv with rfl | hv
        · rw [hrequests] at hq
          obtain ⟨read, -, rfl⟩ := List.mem_map.mp hq
          rfl
        · exact hvisits v hv q hq

theorem exists_scan (hkeys : ∀ r, ∀ read ∈ caller r, read.strKey ∈ p.fields) (h : r.IsFor p)
    {n : Nat} (hn : (p.ntuples : Int) - r.iCurrentRow ≤ n) :
    ∃ visits t, Scan caller r visits t := by
  induction n generalizing r with
  | zero =>
      have hend : ¬r.iCurrentRow + 1 < r.iMaxRow := by
        rw [h.iMaxRow]
        omega
      exact ⟨[], _, .stop ((next_eq r).trans (by rw [decide_eq_false hend]))⟩
  | succ n ih =>
      cases hnext : r.next with
      | mk b r' =>
          cases b with
          | false => exact ⟨[], r', .stop hnext⟩
          | true =>
              obtain ⟨hfor, hcurrent, -, -⟩ := h.next hnext
              obtain ⟨hfor', hcurrent', -⟩ := readAll_facts hfor (hkeys r')
              obtain ⟨visits, t, hscan⟩ := ih hfor' (by
                rw [hcurrent', hcurrent]
                omega)
              refine ⟨_, t, .row hnext ?_ hscan⟩
              rw [hfor.mPResult]
              exact hkeys r'

theorem rows_of_scan (hscan : Scan caller (create p) visits t) :
    visits.map Visit.row = (List.range' 1 (p.ntuples - 1)).map Int.ofNat :=
  (hscan.rows (isFor_create p) rfl).1

/-- `PQgetvalue` is never asked for a row that the result does not have. -/
theorem requests_of_scan (hscan : Scan caller (create p) visits t) {v : Visit} (hv : v ∈ visits)
    {q : Int × Nat} (hq : q ∈ v.requests) : 0 ≤ q.1 ∧ q.1 < p.ntuples := by
  have hrow : v.row ∈ visits.map Visit.row := List.mem_map_of_mem hv
  rw [rows_of_scan hscan] at hrow
  obtain ⟨k, hk, hrow⟩ := List.mem_map.mp hrow
  rw [(hscan.rows (isFor_create p) rfl).2 v hv q hq, ← hrow]
  have := List.mem_range'_1.mp hk
  exact ⟨Int.natCast_nonneg k, by
    change (k : Int) < p.ntuples
    omega⟩

/-- Every caller comes to an end, and it has covered the result exactly when that has no rows. -/
theorem covers_iff (p : PGresult) (caller : CPGDBResult → List Read)
    (hkeys : ∀ r, ∀ read ∈ caller r, read.strKey ∈ p.fields) :
    (∃ visits t, Scan caller (create p) visits t) ∧
      ∀ visits t, Scan caller (create p) visits t → (Covers p visits ↔ p.ntuples = 0) := by
  have hleft : (p.ntuples : Int) - (create p).iCurrentRow ≤ p.ntuples := by
    exact Int.sub_le_self _ (Int.le_refl 0)
  refine ⟨exists_scan hkeys (isFor_create p) hleft,
    fun visits t hscan => ⟨fun hcovers => ?_, fun hnone => ?_⟩⟩
  · have hlength := congrArg List.length (hcovers.rows.symm.trans (rows_of_scan hscan))
    simp only [List.length_map, List.length_range, List.length_range'] at hlength
    omega
  · have hrows := rows_of_scan hscan
    rw [hnone] at hrows
    obtain rfl := List.map_eq_nil_iff.mp hrows
    exact ⟨by rw [hnone]; rfl, fun v hv => by cases hv⟩

/-- A result without rows. -/
theorem covers_of_no_rows :
    ∃ visits t, Scan (fun _ => [.getStr (str "c")]) (create ⟨[str "c"], []⟩) visits t ∧
      Covers ⟨[str "c"], []⟩ visits := by
  obtain ⟨⟨visits, t, hscan⟩, hiff⟩ :=
    covers_iff ⟨[str "c"], []⟩ (fun _ => [.getStr (str "c")]) (fun _ _ hread => by
      obtain rfl := List.mem_singleton.mp hread
      exact List.mem_singleton_self _)
  exact ⟨visits, t, hscan, (hiff visits t hscan).mpr rfl⟩

/-- A result with two rows behind its first `next`. -/
def moved : CPGDBResult := { create ⟨[str "c"], [[str "1"], [str "2"]]⟩ with iCurrentRow := 1 }

/-- Of two rows only the second is visited, and read. -/
theorem row_not_visited :
    ∃ t, Scan (fun _ => [.getStr (str "c")]) (create ⟨[str "c"], [[str "1"], [str "2"]]⟩)
        [⟨1, [(1, 0)]⟩] t ∧
      ¬Covers ⟨[str "c"], [[str "1"], [str "2"]]⟩ [⟨1, [(1, 0)]⟩] := by
  have hvisit : [⟨1, ((moved.readAll [.getStr (str "c")]).requests.drop moved.requests.length)⟩] =
      [(⟨1, [(1, 0)]⟩ : Visit)] := by decide +kernel
  have hnext : (create ⟨[str "c"], [[str "1"], [str "2"]]⟩).next = (true, moved) := rfl
  have hkeys : ∀ read ∈ [Read.getStr (str "c")], read.strKey ∈ moved.mPResult.fields := by
    intro read hread
    obtain rfl := List.mem_singleton.mp hread
    exact List.mem_singleton_self _
  have hscan : Scan (fun _ => [.getStr (str "c")]) _ _ _ := .row hnext hkeys (.stop rfl)
  rw [← hvisit]
  exact ⟨_, hscan, fun h => by cases h.rows⟩

end CPGDBResult

end BtcServer.DbproxyServer
