import Mcpi.Session.Sqlite.Tables

/-!
# Writer leases

`storage/writer-leases.ts`: one row for each session names the owner that may write, with a
fence and an expiry. Acquiring inserts the row or takes over an expired one, renewing moves
the expiry of one's own unexpired row, releasing deletes one's own row. Clocks are whatever
the callers read: they may disagree and run backwards.
-/

namespace Mcpi.Session.Sqlite

variable {ν : Type}

/-- `WriterLease` -/
structure WriterLease where
  ownerId : String
  fence : Nat
  expiresAtMs : Int
  deriving DecidableEq

/-- `owner_id = … AND fence = …` -/
def WriterLease.holds (lease : WriterLease) (row : WriterLeaseRow) : Bool :=
  row.owner_id = lease.ownerId && row.fence = lease.fence

/-- `acquireWriterLease` -/
def acquireWriterLease (rows : SessionRows ν) (ownerId : String) (now expiresAtMs : Int) :
    Option WriterLease × SessionRows ν :=
  match rows.writer_lease with
  | none =>
    (some ⟨ownerId, 1, expiresAtMs⟩, { rows with writer_lease := some ⟨ownerId, 1, expiresAtMs⟩ })
  | some row =>
    if row.expires_at_ms ≤ now then
      (some ⟨ownerId, row.fence + 1, expiresAtMs⟩,
        { rows with writer_lease := some ⟨ownerId, row.fence + 1, expiresAtMs⟩ })
    else (none, rows)

/-- `renewWriterLease` would update the row. -/
def renewable (rows : SessionRows ν) (lease : WriterLease) (now : Int) : Bool :=
  rows.writer_lease.any fun row => lease.holds row && row.expires_at_ms > now

/-- `renewWriterLease`: whether it did, and the lease and the rows then. -/
def renewWriterLease (rows : SessionRows ν) (lease : WriterLease) (now expiresAtMs : Int) :
    Bool × WriterLease × SessionRows ν :=
  if renewable rows lease now then
    (true, { lease with expiresAtMs },
      { rows with writer_lease := rows.writer_lease.map fun row =>
          { row with expires_at_ms := expiresAtMs } })
  else (false, lease, rows)

/-- `releaseWriterLease` -/
def releaseWriterLease (rows : SessionRows ν) (lease : WriterLease) : SessionRows ν :=
  if rows.writer_lease.any lease.holds then { rows with writer_lease := none } else rows

/-- `deleteWriterLease` -/
def deleteWriterLease (rows : SessionRows ν) : SessionRows ν := { rows with writer_lease := none }

/-- `claimWriterLease` -/
def claimWriterLease (rows : SessionRows ν) (uuidv7 : String) (now ttlMs : Int) :
    Attempt (WriterLease × SessionRows ν) :=
  match acquireWriterLease rows uuidv7 now (now + ttlMs) with
  | (some lease, rows) => .ok (lease, rows)
  | (none, _) =>
    sessionError .storage ("SQLite session " ++ rows.session_id ++ " already has an active writer")

/-- `lostWriterError` -/
def lostWriterError (session_id : String) : Failure :=
  .session ⟨.storage, "SQLite session " ++ session_id ++ " writer lease was lost"⟩

end Mcpi.Session.Sqlite
