import Yuke.Agent.Removal
import Yuke.Agent.Updates
import Yuke.Ai.Stream.AnthropicText
import Yuke.Ai.Stream.Intake
import Yuke.Ai.Stream.OpenaiChatReplay
import Yuke.Ai.Stream.SseParse
import Yuke.Ai.Wire.Origin
import Yuke.Ai.Wyhash
import Yuke.App.Frontmatter
import Yuke.App.LiveRuns
import Yuke.App.QuestionRuns
import Yuke.App.ReloadRuns
import Yuke.App.SessionTreeRuns
import Yuke.Auth.DeviceLoginRuns
import Yuke.Auth.LoginLaws
import Yuke.Auth.SourceRuns
import Yuke.Chat.ComposerRuns
import Yuke.Engine.Attempts
import Yuke.Engine.ToolCalls
import Yuke.Js.CaptureText
import Yuke.Js.CompactionShrinks
import Yuke.Js.Decode
import Yuke.Js.EditPatch
import Yuke.Js.FetchRuns
import Yuke.Js.InputRuns
import Yuke.Js.LinePages
import Yuke.Js.TimersRuns
import Yuke.Mcp.ServersRuns
import Yuke.Mcp.Tools
import Yuke.Plugins.LoadOrder
import Yuke.Store.FilesRuns
import Yuke.Store.ForkPrefix
import Yuke.Store.Listing
import Yuke.Term.ParserReads
import Yuke.Tui.FuzzyMisses
import Yuke.Tui.PanesRuns
import Yuke.Tui.SceneRuns
import Yuke.Tui.StylesRuns
import Yuke.Tui.TextCopyRuns
