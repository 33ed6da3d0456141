import BtcServer.DbproxyServer.Holding

/-!
# The program

`main` comes to its end whatever libpq answers, and then nothing is open (`main_returns`).
-/

namespace BtcServer.DbproxyServer

open HttpmessageServer (Bytes str)
open Lib

namespace DbProxy

variable {s t : DbProxy} {a : Action} {d : Nat}

def connectError : Option ConnStatusType → Option String
  | none => some "PQconnectdb failed"
  | some .connectionBad => some "failed to connect db"
  | some .connectionOk => none

def queryError : Option (ExecStatusType × PGresult) → Option String
  | none => some "Fail to PQexec"
  | some (.tuplesOk, _) => none
  | some _ => some "Fail to PQresultStatus"

theorem tryAll_of_ok {as : List Action} (h : s.perform a = some (.ok (), t)) :
    tryAll s (a :: as) = tryAll t as := by
  rw [tryAll, h]

theorem tryAll_of_error {as : List Action} {what : String}
    (h : s.perform a = some (.error what, t)) : tryAll s (a :: as) = some (some what, t) := by
  rw [tryAll, h]

theorem inv_tryAll {as : List Action} {thrown : Option String} (hs : s.Inv)
    (h : tryAll s as = some (thrown, t)) : t.Inv := by
  induction as generalizing s with
  | nil =>
      obtain rfl := (Prod.mk.inj (Option.some.inj h)).2
      exact hs
  | cons a as ih =>
      cases hperform : s.perform a with
      | none =>
          rw [tryAll, hperform] at h
          cases h
      | some outcome =>
          have hu := hs.perform hperform
          obtain ⟨result, u⟩ := outcome
          cases result with
          | error what =>
              rw [tryAll_of_error hperform] at h
              obtain rfl := (Prod.mk.inj (Option.some.inj h)).2
              exact hu
          | ok =>
              rw [tryAll_of_ok hperform] at h
              exact ih hu h

theorem tryAll_Init {key : Bytes} (hd : s.getDB key = some d) (answer : Option ConnStatusType)
    (as : List Action) :
    ∃ t, t.mPGDBPools = s.mPGDBPools ∧ t.pointers = s.pointers + 1 ∧ t.results = s.results ∧
      t.out = s.out ∧ tryAll s (.Init key answer :: as) =
        (connectError answer).elim (tryAll t as) fun what => some (some what, t) := by
  have hperform : s.perform (.Init key answer) = some (s.Init d answer) :=
    congrArg (Option.map fun d => s.Init d answer) hd
  refine ⟨(s.Init d answer).2, ?_⟩
  cases answer with
  | none => exact ⟨rfl, rfl, rfl, rfl, tryAll_of_error hperform⟩
  | some status =>
      cases status with
      | connectionOk => exact ⟨rfl, rfl, rfl, rfl, tryAll_of_ok hperform⟩
      | connectionBad => exact ⟨rfl, rfl, rfl, rfl, tryAll_of_error hperform⟩

theorem tryAll_printed {h : Nat} {r : CPGDBResult} (hr : s.results h = some r) :
    tryAll s [.print h, .release h] = some (none, (s.print h r).release h) := by
  have hprint : s.perform (.print h) = some (.ok (), s.print h r) := congrArg (Option.map _) hr
  have hrelease : (s.print h r).perform (.release h) = some (.ok (), (s.print h r).release h) :=
    congrArg (Option.map _) hr
  rw [tryAll_of_ok hprint, tryAll_of_ok hrelease]
  rfl

def printed (answer : Option (ExecStatusType × PGresult)) : Bytes :=
  (answer.map fun result => (CPGDBResult.create result.2).print).getD []

theorem tryAll_query {key : Bytes} (hd : s.getDB key = some d) (strSql : Bytes)
    (answer : Option (ExecStatusType × PGresult)) (hresults : ∀ h, s.results h = none) :
    ∃ t, tryAll s [.excuteQuery key strSql answer, .print s.pointers, .release s.pointers] =
        some (queryError answer, t) ∧ (∀ h, t.results h = none) ∧
      t.out = s.out ++ (queryError answer).elim (printed answer) fun _ => [] := by
  have hperform : s.perform (.excuteQuery key strSql answer) =
      some ((s.excuteQuery d strSql answer).1.map fun _ => (), (s.excuteQuery d strSql answer).2) :=
    congrArg (Option.map fun d =>
      ((s.excuteQuery d strSql answer).1.map fun _ => (), (s.excuteQuery d strSql answer).2)) hd
  have hfailed {what : String} {t : DbProxy} (ht : s.excuteQuery d strSql answer = (.error what, t))
      (herror : queryError answer = some what) (hsame : t.results = s.results)
      (hout : t.out = s.out) :
      ∃ t, tryAll s [.excuteQuery key strSql answer, .print s.pointers, .release s.pointers] =
          some (queryError answer, t) ∧ (∀ h, t.results h = none) ∧
        t.out = s.out ++ (queryError answer).elim (printed answer) fun _ => [] := by
    rw [ht] at hperform
    rw [herror]
    refine ⟨t, tryAll_of_error hperform, fun h => ?_, ?_⟩
    · rw [hsame, hresults h]
    · rw [hout]
      exact (List.append_nil _).symm
  cases answer with
  | none => exact hfailed rfl rfl rfl rfl
  | some result =>
      obtain ⟨status, p⟩ := result
      cases status with
      | commandOk => exact hfailed rfl rfl rfl rfl
      | other => exact hfailed rfl rfl rfl rfl
      | tuplesOk =>
          have hheld : (s.excuteQuery d strSql (some (.tuplesOk, p))).2.results s.pointers =
              some (.create p) := Function.update_self ..
          refine ⟨((s.excuteQuery d strSql (some (.tuplesOk, p))).2.print s.pointers
            (.create p)).release s.pointers, ?_, fun h => ?_, rfl⟩
          · rw [tryAll_of_ok hperform]
            exact tryAll_printed hheld
          · change Function.update (Function.update s.results s.pointers (some (.create p)))
              s.pointers none h = none
            by_cases hh : h = s.pointers
            · rw [hh, Function.update_self]
            · rw [Function.update_of_ne hh, Function.update_of_ne hh, hresults h]

/-- What `main` puts out: the table, or the text of the first exception. -/
def said (read write : Option ConnStatusType) (answer : Option (ExecStatusType × PGresult)) :
    Bytes :=
  (((connectError read).or ((connectError write).or (queryError answer))).map fun what =>
    str what ++ str "
").getD (printed answer)

/-- The `try` block comes to its end or throws, and then no result is held. -/
theorem tryAll_main (read write : Option ConnStatusType)
    (answer : Option (ExecStatusType × PGresult)) :
    ∃ t, tryAll create [.init, .Init (str "read") read, .Init (str "write") write,
          .excuteQuery (str "read") (str "SELECT * FROM C;") answer, .print 2, .release 2] =
        some ((connectError read).or ((connectError write).or (queryError answer)), t) ∧
      (∀ h, t.results h = none) ∧
      t.out = ((connectError read).or ((connectError write).or (queryError answer))).elim
        (printed answer) fun _ => [] := by
  have hread : create.init.getDB (str "read") = some 0 := by decide +kernel
  have hwrite : create.init.getDB (str "write") = some 1 := by decide +kernel
  have hnone (h : Nat) : create.init.results h = none := rfl
  rw [tryAll_of_ok (t := create.init) rfl]
  obtain ⟨s, hpools, hpointers, hresults, hout, htry⟩ := tryAll_Init hread read
    [.Init (str "write") write, .excuteQuery (str "read") (str "SELECT * FROM C;") answer, .print 2,
      .release 2]
  rw [htry]
  cases hconnect : connectError read with
  | some what => exact ⟨s, rfl, fun h => hresults ▸ hnone h, hout⟩
  | none =>
      have hdb (key : Bytes) : s.getDB key = create.init.getDB key :=
        congrArg (fun pools => (pools.lookup key).bind List.head?) hpools
      obtain ⟨t, hpools', hpointers', hresults', hout', htry'⟩ :=
        tryAll_Init ((hdb _).trans hwrite) write
          [.excuteQuery (str "read") (str "SELECT * FROM C;") answer, .print 2, .release 2]
      rw [Option.elim_none, htry', Option.none_or]
      cases hconnect' : connectError write with
      | some what => exact ⟨t, rfl, fun h => hresults' ▸ hresults ▸ hnone h, hout'.trans hout⟩
      | none =>
          have hdb' : t.getDB (str "read") = some 0 := by
            unfold getDB
            rw [hpools', hpools]
            exact hread
          have htwo : t.pointers = 2 := by
            rw [hpointers', hpointers]
            rfl
          obtain ⟨u, htry'', hresults'', hout''⟩ :=
            tryAll_query hdb' (str "SELECT * FROM C;") answer
              fun h => hresults' ▸ hresults ▸ hnone h
          rw [htwo] at htry''
          rw [Option.elim_none, Option.none_or]
          refine ⟨u, htry'', hresults'', ?_⟩
          rw [hout'', hout', hout]
          rfl

/-- Whatever libpq answers, `main` returns, puts out the table or the text of the first exception,
and leaves nothing open: what libpq gave out was used and given back only while it was open, and
given back once. -/
theorem main_returns (read write : Option ConnStatusType)
    (answer : Option (ExecStatusType × PGresult)) :
    ∃ s, main read write answer = some s ∧ s.out = said read write answer ∧
      Disciplined s.events ∧ ∀ g, .opened g ∈ s.events → s.events.count (.closed g) = 1 := by
  obtain ⟨t, htry, hresults, hout⟩ := tryAll_main read write answer
  have ht := inv_tryAll inv_create htry
  have hexit {s : DbProxy} (hs : Owns s.events fun _ => False) :
      Disciplined s.events ∧ ∀ g, .opened g ∈ s.events → s.events.count (.closed g) = 1 :=
    ⟨hs.disciplined, fun g hg => hs.count_closed_eq hg id⟩
  have hsame (s : DbProxy) : s.exit.out = s.out := by
    change ((s.mPGDBPools.reverse.flatMap Prod.snd).foldl destroy s).out = s.out
    exact List.foldlRecOn (motive := fun u : DbProxy => u.out = s.out) _ _ rfl fun _ hu _ _ => hu
  unfold main said
  rw [htry]
  cases hthrown : (connectError read).or ((connectError write).or (queryError answer)) with
  | none =>
      rw [hthrown] at hout
      exact ⟨t.exit, rfl, (hsame t).trans hout, hexit (ht.exit hresults)⟩
  | some what =>
      rw [hthrown] at hout
      have htold : ({ t with out := t.out ++ str what ++ str "
" } : DbProxy).Inv :=
        ht.of_owns rfl rfl rfl ht.owns ht.fresh
      refine ⟨_, rfl, (hsame _).trans ?_, hexit (htold.exit hresults)⟩
      rw [hout]
      rfl

end DbProxy

end BtcServer.DbproxyServer
