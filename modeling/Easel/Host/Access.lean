import Easel.Host.Basic

/-!
# Access to a host

The operations on files that a program needs, for any monad that offers them. A `Host` offers them
in the state monad; a program run on a machine takes those of the machine.
-/

namespace Easel

/-- File operations, with their failures as values. -/
class HostAccess (m : Type → Type) where
  /-- Whether a path leads to a directory. -/
  stat : RawText → m (Except HostError Bool)
  readFile : RawText → m (Except HostError ByteArray)
  writeFile : RawText → ByteArray → m (Except HostError Unit)
  /-- Make a directory with the directories above it. -/
  makeDirs : RawText → m (Except HostError Unit)
  /-- Remove a file or an empty directory. -/
  remove : RawText → m (Except HostError Unit)

instance : HostAccess (StateM Host) where
  stat path := fun h => (h.stat path, h)
  readFile path := fun h => (h.readFile path, h)
  writeFile path data := fun h => h.change (·.writeFile path data)
  makeDirs path := fun h => h.makeDirs path
  remove path := fun h => h.change (·.remove path)

end Easel
