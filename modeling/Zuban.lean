import Zuban.Path.Prefix
import Zuban.Path.Components
import Zuban.Path.Parent
import Zuban.Path.Front
import Zuban.Path.Push
import Zuban.Path.Joined
import Zuban.Path.Verbatim
import Zuban.Vfs.Handler
import Zuban.Vfs.Split
import Zuban.Vfs.RelativeTo
import Zuban.Vfs.AbsPath
import Zuban.Vfs.JoinParent
import Zuban.Vfs.Join
import Zuban.Config.Search
import Zuban.Config.CliConfig
