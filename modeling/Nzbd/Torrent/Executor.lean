import Nzbd.Torrent.Restore

/-!
# The payload of a removal

What the executor asks before it deletes the data of a torrent: that the payload lies in one of
the allowed roots, and each of its files in the payload.
-/

namespace Nzbd.Torrent

inductive TorrentError
  | missingHandle
  | other

end Nzbd.Torrent
