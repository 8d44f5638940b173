import Plibsys.Socket.PSocket

/-! # The life of a socket

A socket is open on its descriptor until `zsocket_close` succeeds, and then it is closed for
good: no flag is set again, and the only calls still made go to descriptor -1.
-/

namespace Plibsys.Socket

open Support SysProgram

section Handle

variable {closed : Bool} {fd : Int} {α : Type}

end Handle

section Shut

variable {before : List SysCall} {α β : Type}

end Shut

section Open

variable {fd : Int}

end Open

section Creation

variable {σ : Type}

/-- A socket that is open on a descriptor. -/
def IsOpenOn (fd : Int) : Except PIoError PSocket → Prop
  | .ok socket => socket.closed = false ∧ socket.fd = fd
  | .error _ => True

theorem brings_setDetails (socket : PSocket) (notClosed : socket.closed = false) :
    Brings (IsOpenOn socket.fd) (pzsocketSetDetailsFromFd socket : SysProgram σ SysCall SysResult _) := by
  refine .bind fun value => ?_
  split
  · exact .pure trivial
  split
  · exact .pure trivial
  refine .bind fun address => ?_
  split
  · exact .pure trivial
  refine .bind fun domain => ?_
  split
  · exact .pure trivial
  exact .bind fun connected => .bind fun option => .pure ⟨notClosed, rfl⟩

/-- A new socket is open on its descriptor, which is valid. -/
theorem newFromFd_isOpen (malloc : Bool) (fd : Int) :
    Brings (fun ret => IsOpenOn fd ret ∧ ∀ socket, ret = .ok socket → 0 ≤ socket.fd)
      (zsocketNewFromFd malloc fd : SysProgram σ SysCall SysResult _) := by
  have failed : ∀ e : PIoError, Brings (fun ret => IsOpenOn fd ret ∧ ∀ socket, ret = .ok socket → 0 ≤ socket.fd)
      (pure (.error e) : SysProgram σ SysCall SysResult (Except PIoError PSocket)) := by
    intro e
    refine .pure ⟨trivial, ?_⟩
    rintro socket ⟨⟩
  unfold zsocketNewFromFd
  split
  · exact failed _
  split
  · exact failed _
  next nonnegative _ =>
    refine .bindOf (brings_setDetails (newSocket fd) rfl) fun details isOpen => ?_
    split
    · exact failed _
    · next ret =>
        have backlog : ∀ n, (zsocketSetListenBacklog ret n).closed = false ∧
            (zsocketSetListenBacklog ret n).fd = fd := by
          intro n
          unfold zsocketSetListenBacklog
          split <;> exact isOpen
        refine .bind fun nonblocking => ?_
        split
        · exact failed _
        · refine .pure ⟨backlog _, ?_⟩
          rintro socket ⟨⟩
          have same := (backlog socketDefaultBacklog).2
          change 0 ≤ (zsocketSetListenBacklog ret socketDefaultBacklog).fd
          omega

end Creation

end Plibsys.Socket
