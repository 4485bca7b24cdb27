import OpenRpc.Lib.Loans
import OpenRpc.RpcArray
import OpenRpc.Server

/-! # The request objects of a callback

`cb_req_read` once more, with the objects that `rpc_request_new` hands out and `rpc_request_free` takes
back. A parse that gets past the request line obtains one; a head whose body is missing is copied to
another one, which stays with the connection.
-/

namespace OpenRpc

open Loans Memory

/-- What malloc and realloc answer to `rpc_request_new` and `rpc_request_free`, call by call. -/
structure Allocator where
  malloc : Nat → List Nat → Option Nat
  grow : Nat → Option (Nat → Option Nat)
  fresh : ∀ k live p, malloc k live = some p → p ∉ live

/-- `rpc_request_freelist`, made at the first use. The other fields are not in the source: the objects
    that malloc has given and free has not taken, the calls so far, and what became of the objects. -/
structure RequestPool where
  freelist : RpcArray
  live : List Nat
  mallocs : Nat
  adds : Nat
  history : List (Loan Nat)

def RequestPool.initial : RequestPool := ⟨rpcArrayNew, [], 0, 0, []⟩

theorem rpcArrayAdd_stack {more : Option (Nat → Option Nat)} {array array' : RpcArray} {p : Option Nat}
    (added : rpcArrayAdd more array p = (true, array')) : array'.content = array.content ++ [p] := by
  cases more with
  | some more =>
      obtain ⟨array'', result, content⟩ := rpcArrayAdd_content more array p
      cases result.symm.trans added
      exact content
  | none =>
      unfold rpcArrayAdd at added
      split at added
      · rename_i room
        cases added
        exact store_content array p room
      · cases added

theorem rpcArrayAdd_refused {more : Option (Nat → Option Nat)} {array array' : RpcArray} {p : Option Nat}
    (refused : rpcArrayAdd more array p = (false, array')) : array' = array := by
  unfold rpcArrayAdd at refused
  split at refused
  · cases refused
  · cases more <;> cases refused
    rfl

namespace RequestPool

def outstanding (pool : RequestPool) : List Nat := Loans.outstanding pool.history

/-- Nothing: malloc has answered NULL, and the caller writes through it. -/
def rpcRequestNew (a : Allocator) (pool : RequestPool) : Option (Nat × RequestPool) :=
  match rpcArrayGet pool.freelist with
  | (some req, freelist) =>
      some (req, { pool with freelist := freelist, history := .obtained req :: pool.history })
  | (none, freelist) =>
      (a.malloc pool.mallocs pool.live).map fun req =>
        (req, { pool with freelist := freelist
                          live := req :: pool.live
                          mallocs := pool.mallocs + 1
                          history := .obtained req :: pool.history })

def rpcRequestFree (a : Allocator) (pool : RequestPool) (req : Nat) : RequestPool :=
  match rpcArrayAdd (a.grow pool.adds) pool.freelist (some req) with
  | (true, freelist) =>
      { pool with freelist := freelist
                  adds := pool.adds + 1
                  history := .returned req :: pool.history }
  | (false, freelist) =>
      { pool with freelist := freelist
                  live := pool.live.erase req
                  adds := pool.adds + 1
                  history := .returned req :: pool.history }

/-- The objects malloc has given are out, or on the free list. -/
structure Consistent (pool : RequestPool) : Prop where
  accounted : ∃ free : List Nat, pool.freelist.content = free.map some ∧
    pool.live.Perm (pool.outstanding ++ free)
  nodup : pool.live.Nodup
  sound : Sound pool.history

theorem consistent_initial : initial.Consistent where
  accounted := ⟨[], rfl, .refl _⟩
  nodup := List.nodup_nil
  sound := trivial

variable {a : Allocator} {pool pool' : RequestPool} {req : Nat}

theorem rpcRequestNew_spec (consistent : pool.Consistent)
    (new : pool.rpcRequestNew a = some (req, pool')) :
    pool'.Consistent ∧ pool'.outstanding = req :: pool.outstanding := by
  obtain ⟨⟨free, content, accounted⟩, nodup, sound⟩ := consistent
  unfold rpcRequestNew at new
  rcases rpcArrayGet_content pool.freelist with ⟨empty, get⟩ | ⟨rest, p, list, get, split, left⟩
  · rw [get] at new
    obtain ⟨fresh, given, same⟩ := Option.map_eq_some_iff.mp new
    cases same
    have unused := a.fresh _ _ _ given
    have inside : req ∉ pool.outstanding := fun member =>
      unused (accounted.mem_iff.mpr (List.mem_append_left _ member))
    exact ⟨⟨⟨free, content, accounted.cons req⟩, List.nodup_cons.mpr ⟨unused, nodup⟩, inside,
      sound⟩, rfl⟩
  · rw [content] at split
    obtain ⟨before, last, rfl, kept, top⟩ := List.map_eq_append_iff.mp split
    obtain ⟨object, rfl, same⟩ := List.map_eq_singleton_iff.mp top
    cases same
    rw [get] at new
    cases new
    have moved : pool.live.Perm (req :: (pool.outstanding ++ before)) := by
      rw [← List.append_assoc] at accounted
      exact accounted.trans (List.perm_append_singleton req _)
    have apart := (List.nodup_cons.mp (moved.nodup_iff.mp nodup)).1
    refine ⟨⟨⟨before, by rw [left, kept], moved⟩, nodup, ?_, sound⟩, rfl⟩
    exact fun member => apart (List.mem_append_left _ member)

theorem rpcRequestFree_spec (consistent : pool.Consistent) (out : req ∈ pool.outstanding) :
    (pool.rpcRequestFree a req).Consistent ∧
      (pool.rpcRequestFree a req).outstanding = pool.outstanding.erase req := by
  obtain ⟨⟨free, content, accounted⟩, nodup, sound⟩ := consistent
  have taken : pool.live.Perm (req :: (pool.outstanding.erase req ++ free)) :=
    accounted.trans ((List.perm_cons_erase out).append_right free)
  unfold rpcRequestFree
  split
  · rename_i list added
    have stack : list.content = (free ++ [req]).map some := by
      have after := rpcArrayAdd_stack added
      rw [after, content, List.map_append]
      rfl
    have moved : pool.live.Perm (pool.outstanding.erase req ++ (free ++ [req])) := by
      rw [← List.append_assoc]
      exact taken.trans (List.perm_append_singleton req _).symm
    exact ⟨⟨⟨_, stack, moved⟩, nodup, out, sound⟩, rfl⟩
  · rename_i list refused
    have stack : list.content = free.map some := by
      rw [rpcArrayAdd_refused refused, content]
    have left := taken.erase req
    rw [List.erase_cons_head] at left
    exact ⟨⟨⟨free, stack, left⟩, nodup.erase req, out, sound⟩, rfl⟩

end RequestPool

/-- `rpc_request_parse` with the object it returns through `req`. One is obtained behind the request
    line, and given back where a later line is wrong. -/
def rpcRequestParseObject (a : Allocator) (env : ServerEnv) (k : Nat) (c : Window) (pool : RequestPool) :
    ParseResult (Nat × RpcRequest) × Window × RequestPool :=
  let parsed := rpcRequestParse (env.objs k) (env.stale k) c
  match requestLine (env.objs k) (env.stale k) c with
  | (.ok _, _) =>
      match pool.rpcRequestNew a with
      | none => (.undefined, parsed.2, pool)
      | some (req, pool) =>
          match parsed with
          | (.ok obj, c) => (.ok (req, obj), c, pool)
          | (.needData obj, c) => (.needData (req, obj), c, pool)
          | (.error, c) => (.error, c, pool.rpcRequestFree a req)
          | (.undefined, c) => (.undefined, c, pool)
  | _ =>
      match parsed with
      | (.error, c) => (.error, c, pool)
      | (_, c) => (.undefined, c, pool)

/-- A connection in its callback, with the address in its `unprocess_data`, and the request objects. -/
structure Keeper where
  reader : ServerReader
  kept : Option Nat
  pool : RequestPool

/-- One round of the `for (;;)` of `cb_req_read`. -/
def objectRound (a : Allocator) (env : ServerEnv) (s : Keeper) : Except Stop (Bool × Keeper) :=
  let reader := s.reader
  let conn := reader.conn
  if conn.rbytes = 0 then .ok (false, s)
  else
    match conn.unprocessData with
    | none =>
        match conn.window? with
        | none => .error .undefined
        | some c =>
            if rpcConnReceivedHead (c.rbuf.drop c.rcurr ++ [env.behind]) c.rbytes then
              let parsed := { reader with parses := reader.parses + 1 }
              match rpcRequestParseObject a env reader.parses c s.pool with
              | (.ok (req, obj), c, pool) =>
                  match (reqSide env).hand parsed c obj with
                  | .error stop => .error stop
                  | .ok (go, reader) => .ok (go, ⟨reader, s.kept, pool.rpcRequestFree a req⟩)
              | (.needData (req, obj), c, pool) =>
                  match pool.rpcRequestNew a, rpcRequestCopyHead c.rbuf (env.copies reader.parses) obj with
                  | some (copy, pool), some head =>
                      .ok (false, ⟨{ parsed with conn := { conn.setWindow c with
                                                             unprocessData := some head } },
                        some copy, pool.rpcRequestFree a req⟩)
                  | _, _ => .error .undefined
              | (.error, c, pool) =>
                  .ok (false, ⟨{ parsed with conn := conn.setWindow c }, s.kept, pool⟩)
              | (.undefined, _, _) => .error .undefined
            else .ok (false, s)
    | some last =>
        if last.inputLen ≤ conn.rbytes then
          match conn.window?, s.kept with
          | some c, some req =>
              match (reqSide env).hand { reader with conn := { conn with unprocessData := none } }
                  ⟨c.rbuf, c.rcurr + last.inputLen, c.rbytes - last.inputLen⟩
                  { last with input := .rbuf c.rcurr } with
              | .error stop => .error stop
              | .ok (go, reader) => .ok (go, ⟨reader, none, s.pool.rpcRequestFree a req⟩)
          | _, _ => .error .undefined
        else .ok (false, s)

/-- The `for (;;)`, cut off after a number of rounds. -/
def objectRounds (a : Allocator) (env : ServerEnv) : Nat → Keeper → Except Stop Keeper
  | 0, _ => .error .spent
  | fuel + 1, s =>
      match objectRound a env s with
      | .error stop => .error stop
      | .ok (false, s) => .ok s
      | .ok (true, s) => objectRounds a env fuel s

/-- `cb_req_read` with the request objects. -/
def cbReqReadObjects (a : Allocator) (env : ServerEnv) (reads : List ReadResult) (s : Keeper) :
    Except Stop Keeper :=
  match readFromConn env.memcpy env.grow reads s.reader.conn with
  | .undefined => .error .undefined
  | .pending _ => .error .waiting
  | .returned false conn _ => .ok { s with reader := { s.reader with conn := conn } }
  | .returned true conn _ =>
      objectRounds a env (conn.rbytes + 2) { s with reader := { s.reader with conn := conn } }

/-- What a round does with the objects. -/
inductive ObjectMoves (a : Allocator) (s : Keeper) (reader : ServerReader) : Keeper → Prop where
  /-- Nothing. -/
  | still (same : reader.conn.unprocessData = s.reader.conn.unprocessData) :
      ObjectMoves a s reader ⟨reader, s.kept, s.pool⟩
  /-- It obtains one and gives it back: for a whole message, or for a head that is wrong. -/
  | passes {req : Nat} {pool : RequestPool} (new : s.pool.rpcRequestNew a = some (req, pool))
      (same : reader.conn.unprocessData = s.reader.conn.unprocessData) :
      ObjectMoves a s reader ⟨reader, s.kept, pool.rpcRequestFree a req⟩
  | keeps {req copy : Nat} {pool pool' : RequestPool} (idle : s.reader.conn.unprocessData = none)
      (new : s.pool.rpcRequestNew a = some (req, pool))
      (another : pool.rpcRequestNew a = some (copy, pool'))
      (pending : reader.conn.unprocessData.isSome) :
      ObjectMoves a s reader ⟨reader, some copy, pool'.rpcRequestFree a req⟩
  | resumes {req : Nat} (kept : s.kept = some req) (idle : reader.conn.unprocessData = none) :
      ObjectMoves a s reader ⟨reader, none, s.pool.rpcRequestFree a req⟩

section Rounds

variable {a : Allocator} {env : ServerEnv}

theorem rpcRequestParseObject_cases {k : Nat} {c c' : Window} {pool pool' : RequestPool}
    {result : ParseResult (Nat × RpcRequest)}
    (parsed : rpcRequestParseObject a env k c pool = (result, c', pool')) :
    result = .undefined ∨
    (result = .error ∧ rpcRequestParse (env.objs k) (env.stale k) c = (.error, c') ∧ pool' = pool) ∨
    ∃ req taken, pool.rpcRequestNew a = some (req, taken) ∧
      (result = .error ∧ rpcRequestParse (env.objs k) (env.stale k) c = (.error, c') ∧
          pool' = taken.rpcRequestFree a req ∨
        ∃ obj, (result = .ok (req, obj) ∧
            rpcRequestParse (env.objs k) (env.stale k) c = (.ok obj, c') ∨
          result = .needData (req, obj) ∧
            rpcRequestParse (env.objs k) (env.stale k) c = (.needData obj, c')) ∧ pool' = taken) := by
  simp only [rpcRequestParseObject] at parsed
  split at parsed
  · split at parsed
    · cases parsed
      exact .inl rfl
    · rename_i req taken new
      refine .imp id (fun more => .inr more) ?_
      split at parsed
      · rename_i obj c'' parse
        cases parsed
        exact .inr ⟨req, _, new, .inr ⟨obj, .inl ⟨rfl, parse⟩, rfl⟩⟩
      · rename_i obj c'' parse
        cases parsed
        exact .inr ⟨req, _, new, .inr ⟨obj, .inr ⟨rfl, parse⟩, rfl⟩⟩
      · rename_i c'' parse
        cases parsed
        exact .inr ⟨req, taken, new, .inl ⟨rfl, parse, rfl⟩⟩
      · cases parsed
        exact .inl rfl
  · split at parsed
    · rename_i c'' parse
      cases parsed
      exact .inr (.inl ⟨rfl, parse, rfl⟩)
    · cases parsed
      exact .inl rfl

theorem objectRound_head {s s' : Keeper} {go : Bool} (unread : s.reader.conn.rbytes ≠ 0)
    (idle : s.reader.conn.unprocessData = none) (h : objectRound a env s = .ok (go, s')) :
    readRound (reqSide env) env.behind s.reader = .ok (go, s'.reader) ∧
      ObjectMoves a s s'.reader s' := by
  simp only [objectRound, if_neg unread, idle] at h
  simp only [readRound, if_neg unread, idle]
  cases window : s.reader.conn.window? with
  | none =>
      rw [window] at h
      cases h
  | some c =>
      simp only [window] at h ⊢
      by_cases head : rpcConnReceivedHead (c.rbuf.drop c.rcurr ++ [env.behind]) c.rbytes
      · rw [if_pos head] at h ⊢
        cases parsed : rpcRequestParseObject a env s.reader.parses c s.pool with
        | mk result rest =>
            obtain ⟨c', pool⟩ := rest
            rw [parsed] at h
            rcases rpcRequestParseObject_cases parsed with
              rfl | ⟨rfl, parse, rfl⟩ | ⟨req, taken, new, ⟨rfl, parse, rfl⟩ | ⟨obj, step, rfl⟩⟩
            · cases h
            · cases h
              simp only [reqSide, parse]
              exact ⟨trivial, .still rfl⟩
            · cases h
              simp only [reqSide, parse]
              exact ⟨trivial, .passes new rfl⟩
            · rcases step with ⟨rfl, parse⟩ | ⟨rfl, parse⟩
              · have side : (reqSide env).parse s.reader.parses c = (.ok obj, c') := parse
                simp only at h
                simp only [side]
                cases delivered : (reqSide env).hand
                    { s.reader with parses := s.reader.parses + 1 } c' obj with
                | error stop =>
                    rw [delivered] at h
                    cases h
                | ok result =>
                    rw [delivered] at h
                    cases h
                    exact ⟨rfl, .passes new ((reqSide_consumes env).deliver _ _ _ _ delivered).2⟩
              · have side : (reqSide env).parse s.reader.parses c = (.needData obj, c') := parse
                simp only at h
                simp only [side]
                cases another : pool.rpcRequestNew a with
                | none =>
                    rw [another] at h
                    cases h
                | some obtained =>
                    cases copied : rpcRequestCopyHead c'.rbuf (env.copies s.reader.parses) obj with
                    | none =>
                        rw [another, copied] at h
                        cases h
                    | some kept =>
                        have copy : (reqSide env).copyHead s.reader.parses c'.rbuf obj = some kept :=
                          copied
                        rw [another, copied] at h
                        cases h
                        rw [copy]
                        exact ⟨rfl, .keeps idle new another rfl⟩
      · rw [if_neg head] at h ⊢
        cases h
        exact ⟨rfl, .still rfl⟩

theorem objectRound_body {s s' : Keeper} {go : Bool} {last : RpcRequest}
    (unread : s.reader.conn.rbytes ≠ 0) (pending : s.reader.conn.unprocessData = some last)
    (h : objectRound a env s = .ok (go, s')) :
    readRound (reqSide env) env.behind s.reader = .ok (go, s'.reader) ∧
      ObjectMoves a s s'.reader s' := by
  have length : (reqSide env).bodyLen last = last.inputLen := rfl
  simp only [objectRound, if_neg unread, pending] at h
  simp only [readRound, if_neg unread, pending, length]
  by_cases enough : last.inputLen ≤ s.reader.conn.rbytes
  · rw [if_pos enough] at h ⊢
    cases window : s.reader.conn.window? with
    | none =>
        rw [window] at h
        cases h
    | some c =>
        cases kept : s.kept with
        | none =>
            rw [window, kept] at h
            cases h
        | some req =>
            simp only [window, kept] at h ⊢
            cases delivered : (reqSide env).hand
                { s.reader with conn := { s.reader.conn with unprocessData := none } }
                ⟨c.rbuf, c.rcurr + last.inputLen, c.rbytes - last.inputLen⟩
                { last with input := .rbuf c.rcurr } with
            | error stop =>
                rw [delivered] at h
                cases h
            | ok result =>
                rw [delivered] at h
                cases h
                exact ⟨delivered, .resumes kept ((reqSide_consumes env).deliver _ _ _ _ delivered).2⟩
  · rw [if_neg enough] at h ⊢
    cases h
    exact ⟨rfl, .still rfl⟩

theorem objectRound_moves {s s' : Keeper} {go : Bool} (h : objectRound a env s = .ok (go, s')) :
    readRound (reqSide env) env.behind s.reader = .ok (go, s'.reader) ∧
      ObjectMoves a s s'.reader s' := by
  by_cases unread : s.reader.conn.rbytes = 0
  · simp only [objectRound, if_pos unread] at h
    cases h
    rw [readRound, if_pos unread]
    exact ⟨rfl, .still rfl⟩
  · cases pending : s.reader.conn.unprocessData with
    | none => exact objectRound_head unread pending h
    | some last => exact objectRound_body unread pending h

/-- The objects that are out are the one the connection keeps and those in `rest`, which are others'. -/
structure Keeper.Owes (rest : List Nat) (s : Keeper) : Prop where
  pool : s.pool.Consistent
  loans : s.pool.outstanding.Perm (s.kept.toList ++ rest)
  same : s.kept.isSome = s.reader.conn.unprocessData.isSome

theorem Keeper.Owes.moves {rest : List Nat} {s s' : Keeper} {reader : ServerReader}
    (owes : s.Owes rest) (moves : ObjectMoves a s reader s') : s'.Owes rest := by
  obtain ⟨consistent, loans, both⟩ := owes
  cases moves with
  | still same => exact ⟨consistent, loans, both.trans (congrArg Option.isSome same).symm⟩
  | @passes req pool new same =>
      obtain ⟨taken, out⟩ := RequestPool.rpcRequestNew_spec consistent new
      have member : req ∈ pool.outstanding := by rw [out]; exact List.mem_cons_self
      obtain ⟨back, left⟩ := RequestPool.rpcRequestFree_spec (a := a) taken member
      refine ⟨back, ?_, both.trans (congrArg Option.isSome same).symm⟩
      rw [left, out, List.erase_cons_head]
      exact loans
  | @keeps req copy pool pool' idle new another pending =>
      obtain ⟨taken, out⟩ := RequestPool.rpcRequestNew_spec consistent new
      obtain ⟨taken', out'⟩ := RequestPool.rpcRequestNew_spec taken another
      have member : req ∈ pool'.outstanding := by rw [out', out]; simp
      obtain ⟨back, left⟩ := RequestPool.rpcRequestFree_spec (a := a) taken' member
      have apart : copy ≠ req := by
        have nodup := taken'.sound.nodup
        rintro rfl
        rw [show Loans.outstanding pool'.history = pool'.outstanding from rfl, out', out] at nodup
        simp at nodup
      have none_kept : s.kept = none := by
        rw [idle] at both
        exact Option.isSome_eq_false_iff.mp both |> Option.isNone_iff_eq_none.mp
      refine ⟨back, ?_, pending.symm⟩
      rw [left, out', out, List.erase_cons_tail (by simpa using apart), List.erase_cons_head]
      rw [none_kept] at loans
      exact loans.cons copy
  | @resumes req kept idle =>
      rw [kept] at loans
      have member : req ∈ s.pool.outstanding := loans.mem_iff.mpr List.mem_cons_self
      obtain ⟨back, left⟩ := RequestPool.rpcRequestFree_spec (a := a) consistent member
      refine ⟨back, ?_, by rw [idle]; rfl⟩
      rw [left]
      have fewer := loans.erase req
      rwa [Option.toList_some, List.singleton_append, List.erase_cons_head] at fewer

theorem objectRounds_owes {rest : List Nat} {fuel : Nat} {s s' : Keeper}
    (h : objectRounds a env fuel s = .ok s') (owes : s.Owes rest) :
    readRounds (reqSide env) env.behind fuel s.reader = .ok s'.reader ∧ s'.Owes rest := by
  induction fuel generalizing s with
  | zero => cases h
  | succ fuel ih =>
      unfold objectRounds at h
      cases round : objectRound a env s with
      | error stop =>
          rw [round] at h
          cases h
      | ok result =>
          obtain ⟨go, s₁⟩ := result
          obtain ⟨same, moves⟩ := objectRound_moves round
          rw [round] at h
          cases go with
          | false =>
              cases h
              exact ⟨by simp only [readRounds, same], owes.moves moves⟩
          | true =>
              obtain ⟨rounds, after⟩ := ih h (owes.moves moves)
              exact ⟨by simp only [readRounds, same, rounds], after⟩

/-- A run of the callback keeps the account, and is the run without the objects. -/
theorem cbReqReadObjects_owes {rest : List Nat} {reads : List ReadResult} {s s' : Keeper}
    (h : cbReqReadObjects a env reads s = .ok s') (owes : s.Owes rest)
    (still : ∀ value conn left, readFromConn env.memcpy env.grow reads s.reader.conn =
      .returned value conn left → conn.unprocessData = s.reader.conn.unprocessData) :
    cbReqRead env reads s.reader = .ok s'.reader ∧ s'.Owes rest := by
  unfold cbReqReadObjects at h
  cases read : readFromConn env.memcpy env.grow reads s.reader.conn with
  | undefined =>
      simp only [read] at h
      cases h
  | pending conn =>
      simp only [read] at h
      cases h
  | returned value conn left =>
      have same := still _ _ _ read
      have owes : Keeper.Owes rest { s with reader := { s.reader with conn := conn } } :=
        ⟨owes.pool, owes.loans, owes.same.trans (congrArg Option.isSome same).symm⟩
      cases value with
      | false =>
          simp only [read] at h
          cases h
          exact ⟨by simp only [cbReqRead, cbRead, read], owes⟩
      | true =>
          simp only [read] at h
          obtain ⟨rounds, after⟩ := objectRounds_owes h owes
          exact ⟨by simp only [cbReqRead, cbRead, read]; exact rounds, after⟩

end Rounds

end OpenRpc
